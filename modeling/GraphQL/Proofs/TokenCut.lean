import GraphQL.Proofs.Layout
import GraphQL.Proofs.SyntaxTree

/-!
# Tokens cut out of a text

A token depends on what follows it through the next character at most: the lexer reads the same token where the text
goes on with the same character, and where it ends (`Lexeme.read_cut`). So tokens that stand one after the other in
a source are read again from the stretch of text between the start of the first and the end of the last
(`tokens_of_text`).
-/

namespace GraphQL

/-- The text is empty, or it begins as the other does. -/
def BeginsLike (z rest : List Char) : Prop := ∀ c ∈ z.head?, c ∈ rest.head?

private theorem beginsLike_append {z : List Char} (hz : z ≠ []) (rest : List Char) : BeginsLike z (z ++ rest) := by
  cases z with
  | nil => exact absurd rfl hz
  | cons c z => exact fun _ h => h

private theorem readDots_cut {text : List Char} (h : (readDots text).kind.isError = false) (z : List Char) :
    readDots ((readDots text).text ++ z) = ⟨(readDots text).kind, (readDots text).text, z⟩ := by
  unfold readDots at h ⊢
  split at h
  · rfl
  · cases h
  · cases h

private theorem readName_cut {text z : List Char} (hz : BeginsLike z (readName text).rest) :
    readName ((readName text).text ++ z) = ⟨(readName text).kind, (readName text).text, z⟩ := by
  have hstop : ∀ c ∈ z.head?, isNameContinue c = false := by
    intro c hc
    have := List.head?_dropWhile_not isNameContinue text
    have hrest : (text.dropWhile isNameContinue).head? = some c := hz c hc
    simpa [hrest] using this
  have hspan := span_append (y := text.takeWhile isNameContinue) (fun c hc => all_of_mem_takeWhile hc) hstop
  simp only [readName, hspan.1, hspan.2]

theorem Number.read_cut {text z : List Char} (h : (Number.read text).kind.isError = false)
    (hz : BeginsLike z (Number.read text).rest) :
    Number.read ((Number.read text).text ++ z) = ⟨(Number.read text).kind, (Number.read text).text, z⟩ := by
  cases hscan : Number.scan text with
  | error e => obtain ⟨_ | fault, s⟩ := e <;> simp [Number.read, hscan, Token.Kind.isError] at h
  | ok s =>
    simp only [Number.read, hscan] at hz ⊢
    have hstops : Number.Stops z := fun c hc => (Number.isLiteral_of_scan hscan).2 c (hz c hc)
    rw [Number.scan_append hscan hstops]

private theorem readString_cut {rest z : List Char} (h : (readString ('"' :: rest)).kind.isError = false)
    (hz : BeginsLike z (readString ('"' :: rest)).rest) :
    readString ((readString ('"' :: rest)).text ++ z) =
      ⟨(readString ('"' :: rest)).kind, (readString ('"' :: rest)).text, z⟩ := by
  by_cases hblock : ∃ body, rest = '"' :: '"' :: body
  · obtain ⟨body, rfl⟩ := hblock
    cases hlength : blockLength false body with
    | mk n e =>
      cases e with
      | closed =>
        obtain ⟨taken, tail, rfl, rfl, -, hagain⟩ := blockLength_closed hlength
        simp only [readString_block (hagain tail), List.cons_append, readString_block (hagain z)]
      | endOfLine | endOfInput => simp [readString, hlength, Token.Kind.isError] at h
  · have hnot : ∀ body, rest ≠ '"' :: '"' :: body := fun body h => hblock ⟨body, h⟩
    cases hlength : quotedLength rest with
    | mk n e =>
      cases e with
      | closed =>
        obtain ⟨taken, tail, rfl, rfl, hagain⟩ := quotedLength_closed hlength
        simp only [readString_quoted (hagain tail) hnot] at hz ⊢
        rw [List.cons_append]
        refine readString_quoted (hagain z) fun body hbody => ?_
        -- behind an empty string `z` goes on with a third quote as the text did
        obtain ⟨rfl, rfl⟩ := eq_quote_of_closed (hagain z) hbody
        obtain ⟨rest, rfl⟩ := List.head?_eq_some_iff.1 (hz '"' rfl)
        exact hnot rest rfl
      | endOfLine | endOfInput => simp [readString, hnot, hlength, Token.Kind.isError] at h

/-- A token is read again where the text after it begins in the same way, or where there is none. -/
theorem Lexeme.read_cut {c : Char} {rest cs z : List Char} (htext : (read c rest).text = c :: cs)
    (h : (read c rest).kind.isError = false) (hz : BeginsLike z (read c rest).rest) :
    read c (cs ++ z) = ⟨(read c rest).kind, c :: cs, z⟩ := by
  cases reading c with
  | sign _ hread =>
    rw [hread rest] at htext ⊢
    obtain rfl : cs = [] := (List.cons.inj htext).2.symm
    exact hread z
  | dots _ hread =>
    rw [hread rest] at htext h ⊢
    rw [hread, ← List.cons_append, ← htext]
    exact readDots_cut h z
  | string hquote hread =>
    subst hquote
    rw [hread rest] at htext h hz ⊢
    rw [hread, ← List.cons_append, ← htext]
    exact readString_cut h hz
  | word _ hread =>
    rw [hread rest] at htext hz ⊢
    rw [hread, ← List.cons_append, ← htext]
    exact readName_cut hz
  | number _ hread =>
    rw [hread rest] at htext h hz ⊢
    rw [hread, ← List.cons_append, ← htext]
    exact Number.read_cut h hz
  | stray hread =>
    rw [hread] at h
    cases h

/-- The first token stands behind a gap, and the other tokens are those of the text behind it. -/
theorem exists_read {c : Cursor} {text : List Char} {t : Token} {ts : List Token} (h : tokensFrom c text = t :: ts)
    (ht : ¬ t.kind.IsLast) : ∃ gap ch cs rest, text = gap ++ (ch :: cs ++ rest) ∧ Gap gap ∧
      Lexeme.read ch (cs ++ rest) = ⟨t.kind, ch :: cs, rest⟩ ∧
      t.span = ⟨(c.after gap).position, ((c.after gap).after (ch :: cs)).position⟩ ∧
      ts = tokensFrom ((c.after gap).after (ch :: cs)) rest := by
  have hsplit := ignored_append text
  rw [tokensFrom_eq] at h
  cases hrest : (ignored text).2 with
  | nil =>
    rw [hrest] at h
    obtain ⟨rfl, -⟩ := List.cons.inj h
    exact absurd (.inl rfl) ht
  | cons ch rest =>
    have hgap : Gap (ignored text).1 := by
      rcases gap_of_ignored text with ⟨hnil, -⟩ | hgap
      · rw [hnil] at hrest
        cases hrest
      · exact hgap
    have happend := Lexeme.read_append ch rest
    obtain ⟨d, cs, htext⟩ := List.exists_cons_of_ne_nil (Lexeme.read_text_ne_nil ch rest)
    rw [htext] at happend
    obtain ⟨rfl, hcs⟩ := List.cons.inj happend
    rw [hrest] at h hsplit
    simp only [tokensAt, htext] at h
    split at h
    · rename_i herror
      obtain ⟨rfl, -⟩ := List.cons.inj h
      exact absurd (.inr herror) ht
    · obtain ⟨rfl, rfl⟩ := List.cons.inj h
      refine ⟨(ignored text).1, d, cs, (Lexeme.read d rest).rest, ?_, hgap, ?_, rfl, rfl⟩
      · rw [← happend] at hsplit
        exact hsplit.symm
      · have hwhole : cs ++ (Lexeme.read d rest).rest = rest := hcs
        rw [hwhole, ← htext]

/-- The text from a token on. -/
theorem exists_text_of_tokensFrom {c : Cursor} {text : List Char} {ts us : List Token}
    (h : tokensFrom c text = ts ++ us) (hts : ∀ t ∈ ts, ¬ t.kind.IsLast) :
    ∃ front rest, text = front ++ rest ∧ tokensFrom (c.after front) rest = us := by
  induction ts generalizing c text with
  | nil => exact ⟨[], text, rfl, h⟩
  | cons t ts ih =>
    obtain ⟨gap, ch, cs, rest, rfl, -, -, -, htail⟩ := exists_read h (hts t (by simp))
    obtain ⟨front, rest, rfl, hus⟩ := ih htail.symm fun u hu => hts u (by simp [hu])
    refine ⟨gap ++ (ch :: cs ++ front), rest, by simp, ?_⟩
    rwa [Cursor.after_append, Cursor.after_append]

/-- Behind a gap, a stretch at the front of the text with just the tokens `us`, from the start of the first to the end
of the last. -/
structure Cut (c : Cursor) (text : List Char) (us : List Token) (gap body rest : List Char) : Prop where
  text_eq : text = gap ++ (body ++ rest)
  separates : Gap gap
  starts : StartsToken body
  nonempty : body ≠ []
  kinds : ∀ c', (tokensFrom c' body).map (·.kind) = us.map (·.kind) ++ [.endOfInput]
  first : ∀ t ∈ us.head?, t.span.first = (c.after gap).position
  stop : ∀ t ∈ us.getLast?, t.span.stop = ((c.after gap).after body).position

private theorem tokensFrom_cons {ch : Char} {cs z : List Char} {kind : Token.Kind}
    (h : Lexeme.read ch (cs ++ z) = ⟨kind, ch :: cs, z⟩) (hkind : kind.isError = false) (c : Cursor) :
    (tokensFrom c (ch :: cs ++ z)).map (·.kind) = kind :: (tokensFrom (c.after (ch :: cs)) z).map (·.kind) := by
  have hstarts : StartsToken (ch :: (cs ++ z)) := startsToken_of_read (by rw [h]; exact hkind) _
  rw [List.cons_append, tokensFrom_eq, ignored_of_startsToken hstarts]
  simp only [tokensAt, h, hkind, Bool.false_eq_true, if_false, List.map_cons, Cursor.after_nil]

/-- A gap in front of a text adds no token. -/
theorem tokensFrom_gap {gap text : List Char} (h : Gap gap) (htext : StartsToken text) (c : Cursor) :
    tokensFrom c (gap ++ text) = tokensFrom (c.after gap) text := by
  rw [tokensFrom_eq, tokensFrom_eq, ignored_gap_append h, ignored_of_startsToken htext, List.append_nil,
    Cursor.after_nil]

private theorem exists_cut {c : Cursor} {text : List Char} {us vs : List Token} (h : tokensFrom c text = us ++ vs)
    (hne : us ≠ []) (hus : ∀ t ∈ us, ¬ t.kind.IsLast) : ∃ gap body rest, Cut c text us gap body rest := by
  induction us generalizing c text with
  | nil => exact absurd rfl hne
  | cons t us ih =>
    obtain ⟨gap, ch, cs, rest, rfl, hgap, hread, hspan, htail⟩ := exists_read h (hus t (by simp))
    have herror : t.kind.isError = false := by
      rw [← Bool.not_eq_true]
      exact fun hkind => hus t (by simp) (.inr hkind)
    have hstarts (z : List Char) : StartsToken (ch :: z) := startsToken_of_read (by rw [hread]; exact herror) z
    have hagain (z : List Char) (hz : BeginsLike z rest) : Lexeme.read ch (cs ++ z) = ⟨t.kind, ch :: cs, z⟩ := by
      have := Lexeme.read_cut (z := z) (by rw [hread]) (by rw [hread]; exact herror) (by rw [hread]; exact hz)
      rwa [hread] at this
    cases us with
    | nil =>
      -- the last token is read up to the end of the stretch
      refine ⟨gap, ch :: cs, rest, rfl, hgap, hstarts cs, by simp, fun c' => ?_, ?_, ?_⟩
      · have hlast := tokensFrom_cons (hagain [] (by simp [BeginsLike])) herror c'
        rw [List.append_nil] at hlast
        rw [hlast, tokensFrom_eq]
        rfl
      · simp [hspan]
      · simp [hspan]
    | cons u us =>
      obtain ⟨gap', body, rest, hcut⟩ := ih htail.symm (by simp) fun v hv => hus v (by simp [hv])
      obtain ⟨rfl, hgap', hbody, hnonempty, hkinds, -, hstop⟩ := hcut
      have hmore : gap' ++ body ≠ [] := by simp [hnonempty]
      refine ⟨gap, ch :: cs ++ (gap' ++ body), rest, by simp, hgap, hstarts _, by simp, fun c' => ?_, ?_, ?_⟩
      · have hfirst := hagain (gap' ++ body) (by
          rw [← List.append_assoc]
          exact beginsLike_append hmore rest)
        rw [tokensFrom_cons hfirst herror, tokensFrom_gap hgap' hbody, hkinds]
        rfl
      · simp [hspan]
      · rw [List.getLast?_cons_cons, Cursor.after_append, Cursor.after_append]
        exact hstop

/-- The text of a span that covers some tokens has just these tokens. -/
theorem tokens_of_text {source : String} {ts us vs : List Token} (h : tokens source = ts ++ us ++ vs)
    (hin : ∀ t ∈ ts ++ us, ¬ t.kind.IsLast) {span : Span} (hspan : span.Covers us) :
    (tokens (span.text source)).map (·.kind) = us.map (·.kind) ++ [.endOfInput] := by
  rw [tokens, List.append_assoc] at h
  obtain ⟨front, text, hsource, htext⟩ := exists_text_of_tokensFrom h fun t ht => hin t (by simp [ht])
  obtain ⟨gap, body, rest, hcut⟩ := exists_cut htext hspan.ne_nil fun t ht => hin t (by simp [ht])
  obtain ⟨first, hhead, last, hlast, rfl⟩ := hspan
  -- both ends are counted afresh from the text in front of them
  have hstart : first.span.first = .after (front ++ gap) := by
    rw [hcut.first first hhead, Cursor.start_eq_behind, Cursor.after_behind, Cursor.after_behind]
    rfl
  have hend : last.span.stop = .after (front ++ gap ++ body) := by
    rw [hcut.stop last hlast, Cursor.start_eq_behind, Cursor.after_behind, Cursor.after_behind, Cursor.after_behind]
    rfl
  have hparts : source.toList = front ++ gap ++ body ++ rest := by
    rw [hsource, hcut.text_eq]
    simp only [List.append_assoc]
  have hslice : (first.span.through last.span).slice? source = some (String.ofList body) := by
    rw [Span.through, hstart, hend]
    exact slice?_after hparts
  rw [Span.text, hslice, Option.getD_some, tokens, String.toList_ofList]
  exact hcut.kinds .start

end GraphQL
