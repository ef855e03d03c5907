import GraphQL.Proofs.GrammarSound
import GraphQL.Proofs.SpanBlind
import GraphQL.Proofs.Tiling

/-!
# Layouts of the same tokens

A layout of some texts has them one after the other, with gaps between them. The texts of the tokens of a source are
read as the same tokens in every layout (`tokensFrom_layout`), since each is read again as far as it goes wherever
what follows does not run into it (`Token.Kind.Genuine.read_spelling`). As parsing does not look at spans, the
source and the layout are parsed alike (`parse_layout`).
-/

namespace GraphQL

/-- What a sign is written as is read as the sign, whatever follows. -/
theorem Punctuator.read_text (sign : Punctuator) : ∃ c cs, sign.text.toList = c :: cs ∧
    ∀ z, Lexeme.read c (cs ++ z) = ⟨.punctuator sign, c :: cs, z⟩ := by
  cases sign
  case ellipsis => exact ⟨'.', ['.', '.'], rfl, fun z => rfl⟩
  all_goals exact ⟨_, [], String.toList_ofList, fun z => rfl⟩

/-- What a genuine token is written as is read as the token, where what follows does not run into it. -/
theorem Token.Kind.Genuine.read_spelling {kind : Token.Kind} (h : kind.Genuine) (hlast : ¬ kind.IsLast)
    {w : String} (hw : kind.spelling? = some w) : ∃ c cs, w.toList = c :: cs ∧
      ∀ z, Opens z → Lexeme.read c (cs ++ z) = ⟨kind, c :: cs, z⟩ := by
  have hword (hname : kind.asName? = some w) : ∃ c cs, w.toList = c :: cs ∧
      ∀ z, Opens z → Lexeme.read c (cs ++ z) = ⟨kind, c :: cs, z⟩ := by
    have hkind := h.eq_wordKind hname
    rw [hkind] at h ⊢
    obtain ⟨c, cs, hcs, -, hread⟩ := h.read_word
    exact ⟨c, cs, hcs, hread⟩
  have hnumber (hraw : kind.numberText? = some w) : ∃ c cs, w.toList = c :: cs ∧
      ∀ z, Opens z → Lexeme.read c (cs ++ z) = ⟨kind, c :: cs, z⟩ := by
    obtain ⟨c, cs, hcs, -, hread⟩ := h.read_number hraw
    exact ⟨c, cs, hcs, hread⟩
  have hstring (hraw : kind.literal? = some w) : ∃ c cs, w.toList = c :: cs ∧
      ∀ z, Opens z → Lexeme.read c (cs ++ z) = ⟨kind, c :: cs, z⟩ := by
    obtain ⟨cs, hcs, hread⟩ := h.read_string hraw
    exact ⟨'"', cs, hcs, hread⟩
  cases kind with
  | punctuator sign =>
    obtain ⟨c, cs, hcs, hread⟩ := sign.read_text
    rw [← Option.some.inj hw]
    exact ⟨c, cs, hcs, fun z _ => hread z⟩
  | name text => exact hword hw
  | trueWord => exact hword hw
  | falseWord => exact hword hw
  | nullWord => exact hword hw
  | int text => exact hnumber hw
  | float text => exact hnumber hw
  | string text => exact hstring hw
  | blockString text => exact hstring hw
  | endOfInput => exact absurd (.inl rfl) hlast
  | error cause => exact absurd (.inr rfl) hlast

/-- No token begins like a gap. -/
theorem startsToken_of_read {c : Char} {rest : List Char} (h : (Lexeme.read c rest).kind.isError = false)
    (text : List Char) : StartsToken (c :: text) := by
  intro d hd
  obtain rfl : c = d := by simpa using hd
  constructor
  · rw [← Bool.not_eq_true]
    intro hblank
    simp only [isBlank, Bool.or_eq_true, decide_eq_true_eq] at hblank
    rcases hblank with ((((rfl | rfl) | rfl) | rfl) | rfl) | rfl <;> cases h
  · rintro rfl
    cases h

theorem exists_spelling {kind : Token.Kind} (h : ¬ kind.IsLast) : ∃ w, kind.spelling? = some w := by
  cases kind with
  | endOfInput => exact absurd (.inl rfl) h
  | error cause => exact absurd (.inr rfl) h
  | _ => exact ⟨_, rfl⟩

/-- The texts one after the other, each behind a gap, and a last gap behind them. The gap in front of the first may
be empty if `bare` says so, all others may not. -/
inductive Layout : Bool → List (List Char) → List Char → Prop where
  | last {bare : Bool} {gap : List Char} (h : LastGap gap) : Layout bare [] gap
  | cons {bare : Bool} {gap piece : List Char} {pieces : List (List Char)} {text : List Char} (h : Gap gap)
    (hne : gap = [] → bare = true) (rest : Layout false pieces text) :
    Layout bare (piece :: pieces) (gap ++ (piece ++ text))

private theorem Gap.opens {gap : List Char} (h : Gap gap) : Opens gap := by
  cases h with
  | nil => exact opens_nil
  | @blank c rest hc _ =>
    refine opens_cons _ ?_
    simp only [isBlank, Bool.or_eq_true, decide_eq_true_eq] at hc
    rcases hc with ((((rfl | rfl) | rfl) | rfl) | rfl) | rfl <;> decide
  | comment => exact opens_cons _ (by decide)

/-- A text that stands behind a token does not run into it. -/
theorem Layout.opens {pieces : List (List Char)} {text : List Char} (h : Layout false pieces text) :
    Opens text := by
  cases h with
  | last h =>
    cases h with
    | closed h => exact h.opens
    | unclosed h _ => exact h.opens.append (opens_cons _ (by decide))
  | @cons _ gap piece pieces text h hne _ =>
    obtain ⟨c, cs, rfl⟩ : ∃ c cs, gap = c :: cs := by
      cases gap with
      | nil => cases hne rfl
      | cons c cs => exact ⟨c, cs, rfl⟩
    exact h.opens

/-- What a token is written as, of which the last token has nothing. -/
def Token.Kind.written (kind : Token.Kind) : List Char := (kind.spelling?.getD "").toList

/-- In a layout of what some tokens are written as, the lexer finds these tokens. -/
theorem tokensFrom_layout {bare : Bool} {kinds : List Token.Kind} {text : List Char}
    (h : Layout bare (kinds.map Token.Kind.written) text)
    (hkinds : ∀ kind ∈ kinds, kind.Genuine ∧ ¬ kind.IsLast) (c : Cursor) :
    (tokensFrom c text).map (·.kind) = kinds ++ [.endOfInput] := by
  induction kinds generalizing bare text c with
  | nil =>
    cases h with
    | last h =>
      rw [tokensFrom_eq, ignored_lastGap h]
      rfl
  | cons kind kinds ih =>
    cases h with
    | @cons _ gap _ _ text h hne hrest =>
      obtain ⟨hgenuine, hinside⟩ := hkinds kind (by simp)
      obtain ⟨w, hw⟩ := exists_spelling hinside
      obtain ⟨ch, cs, hcs, hread⟩ := hgenuine.read_spelling hinside hw
      have hwritten : kind.written = ch :: cs := by
        rw [Token.Kind.written, hw, Option.getD_some, hcs]
      have hlexeme := hread text hrest.opens
      have herror : kind.isError = false := by
        rw [← Bool.not_eq_true]
        exact fun hkindError => hinside (.inr hkindError)
      have hstarts : StartsToken (ch :: (cs ++ text)) := by
        have hkind : (Lexeme.read ch (cs ++ text)).kind.isError = false := by rw [hlexeme]; exact herror
        exact startsToken_of_read hkind _
      have hignored : ignored (gap ++ (kind.written ++ text)) = (gap, ch :: (cs ++ text)) := by
        rw [hwritten, ignored_gap_append h, List.cons_append, ignored_of_startsToken hstarts, List.append_nil]
      have htail := ih hrest (fun kind hkind => hkinds kind (by simp [hkind])) ((c.after gap).after (ch :: cs))
      rw [tokensFrom_eq, hignored]
      simp only [tokensAt, hlexeme, herror, Bool.false_eq_true, if_false, List.map_cons, htail, List.cons_append]

/-- The text of a token that is no error is what its kind is written as. -/
theorem text_of_mem_tokens {source : String} {t : Token} (ht : t ∈ tokens source) (herror : t.kind.isError = false) :
    (t.span.text source).toList = t.kind.written := by
  obtain ⟨before, gap, text, after, htile, -⟩ := (tiles_tokens source).exists_tile ht
  obtain ⟨w, hw⟩ : ∃ w, t.kind.spelling? = some w := by
    cases hkind : t.kind <;> simp_all [Token.Kind.spelling?, Token.Kind.isError]
  rw [Span.text, htile.slice?, Token.Kind.written, hw, htile.spelling w hw]

/-- The tokens of a text that is lexed without an error, but for the end of the input. -/
theorem kinds_of_tokens {source : String} (hlex : ∀ t ∈ tokens source, t.kind.isError = false) :
    (tokens source).map (·.kind) = ((tokens source).dropLast).map (·.kind) ++ [.endOfInput] ∧
      ∀ t ∈ (tokens source).dropLast, ¬ t.kind.IsLast := by
  obtain ⟨ts, e, htokens, he, hts⟩ := (tiles_tokens source).exists_last
  have hend : e.kind = .endOfInput := by
    rcases he with he | he
    · exact he
    · have := hlex e (by simp [htokens])
      rw [he] at this
      cases this
  rw [htokens, List.dropLast_concat]
  exact ⟨by simp [hend], hts⟩

private theorem pieces_of_tokens {source : String} (hlex : ∀ t ∈ tokens source, t.kind.isError = false) :
    (tokens source).dropLast.map (fun t => (t.span.text source).toList) =
      ((tokens source).dropLast.map (·.kind)).map Token.Kind.written := by
  rw [List.map_map]
  refine List.map_congr_left fun t ht => ?_
  have hmem := (List.dropLast_sublist _).subset ht
  exact text_of_mem_tokens hmem (hlex t hmem)

/-- A layout of the texts of a source's tokens has the same tokens with the same texts, and it is parsed to the same
document as the source up to spans, or not at all with the same fault and message. -/
theorem parse_layout {source source' : String} (hlex : ∀ t ∈ tokens source, t.kind.isError = false)
    (h : Layout true ((tokens source).dropLast.map fun t => (t.span.text source).toList) source'.toList) :
    (tokens source').map (fun t => (t.kind, t.span.text source')) =
        (tokens source).map (fun t => (t.kind, t.span.text source)) ∧
      Parse.outcome (Document.restyle .erase) (Document.parse source') =
        Parse.outcome (Document.restyle .erase) (Document.parse source) ∧
      Parse.outcome (SchemaDocument.restyle .erase) (SchemaDocument.parse source') =
        Parse.outcome (SchemaDocument.restyle .erase) (SchemaDocument.parse source) := by
  obtain ⟨hend, hinside⟩ := kinds_of_tokens hlex
  rw [pieces_of_tokens hlex] at h
  have hkinds : (tokens source').map (·.kind) = (tokens source).map (·.kind) := by
    rw [hend]
    refine tokensFrom_layout h ?_ .start
    simp only [List.mem_map, forall_exists_index, and_imp, forall_apply_eq_imp_iff₂]
    intro t ht
    exact ⟨tokensFrom_genuine _ _ t ((List.dropLast_sublist _).subset ht), hinside t ht⟩
  have hlex' : ∀ t ∈ tokens source', t.kind.isError = false := by
    intro t ht
    have hmem : t.kind ∈ (tokens source).map (·.kind) := hkinds ▸ List.mem_map_of_mem ht
    obtain ⟨u, hu, hkind⟩ := List.mem_map.1 hmem
    rw [← hkind]
    exact hlex u hu
  -- what a token is written as is told by its kind, on both sides
  have htext (s : String) (hs : ∀ t ∈ tokens s, t.kind.isError = false) :
      (tokens s).map (fun t => (t.kind, t.span.text s)) =
        ((tokens s).map (·.kind)).map fun kind => (kind, String.ofList kind.written) := by
    rw [List.map_map]
    refine List.map_congr_left fun t ht => ?_
    rw [Function.comp_apply, ← text_of_mem_tokens ht (hs t ht), String.ofList_toList]
  refine ⟨by rw [htext source' hlex', htext source hlex, hkinds], ?_, ?_⟩
  · exact Parse.document_alike hkinds
  · exact Parse.schemaDocument_alike hkinds

/-- Two fields, laid out with comments, of which the last is not closed. -/
theorem parse_layout_of_comments :
    let source := "\x7ba b\x7d"
    let source' := "# c\n\x7b\ta,b\r\n\x7d#"
    (∀ t ∈ tokens source, t.kind.isError = false) ∧
      Layout true ((tokens source).dropLast.map fun t => (t.span.text source).toList) source'.toList ∧
      (tokens source').map (fun t => (t.kind, t.span.text source')) =
        (tokens source).map (fun t => (t.kind, t.span.text source)) ∧
      Parse.outcome (Document.restyle .erase) (Document.parse source') =
        Parse.outcome (Document.restyle .erase) (Document.parse source) ∧
      Parse.outcome (SchemaDocument.restyle .erase) (SchemaDocument.parse source') =
        Parse.outcome (SchemaDocument.restyle .erase) (SchemaDocument.parse source) := by
  intro source source'
  have htokens : tokens source = lexChars ['\x7b', 'a', ' ', 'b', '\x7d'] :=
    tokens_eq_lexChars String.toList_ofList
  have hlex : ∀ t ∈ tokens source, t.kind.isError = false := by
    rw [htokens]
    decide +kernel
  have hkinds : (tokens source).dropLast.map (·.kind) = [.punctuator .openBrace, .name (String.ofList ['a']),
      .name (String.ofList ['b']), .punctuator .closeBrace] := by
    rw [htokens]
    decide +kernel
  have hlayout : Layout true ((tokens source).dropLast.map fun t => (t.span.text source).toList)
      source'.toList := by
    have hcomment : Gap ('#' :: ([' ', 'c'] ++ '\n' :: [])) := .comment (by simp [isLineTerminator]) rfl .nil
    have hlast : Layout false [['\x7d']] (['\r', '\n'] ++ (['\x7d'] ++ ['#'])) :=
      .cons (.blank rfl (.blank rfl .nil)) (by simp) (.last (.unclosed .nil (by simp)))
    have hfields : Layout false [['a'], ['b'], ['\x7d']]
        (['\t'] ++ (['a'] ++ ([','] ++ (['b'] ++ (['\r', '\n'] ++ (['\x7d'] ++ ['#'])))))) :=
      .cons (.blank rfl .nil) (by simp) (.cons (.blank rfl .nil) (by simp) hlast)
    have hsource : source'.toList = '#' :: ([' ', 'c'] ++ '\n' :: []) ++ (['\x7b'] ++
        (['\t'] ++ (['a'] ++ ([','] ++ (['b'] ++ (['\r', '\n'] ++ (['\x7d'] ++ ['#']))))))) :=
      String.toList_ofList
    have hpieces : ((tokens source).dropLast.map (·.kind)).map Token.Kind.written =
        [['\x7b'], ['a'], ['b'], ['\x7d']] := by
      rw [hkinds]
      simp [Token.Kind.written, Token.Kind.spelling?, Punctuator.text]
    rw [pieces_of_tokens hlex, hpieces, hsource]
    exact .cons hcomment (by simp) hfields
  exact ⟨hlex, hlayout, parse_layout hlex hlayout⟩

end GraphQL
