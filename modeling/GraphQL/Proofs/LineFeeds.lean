import GraphQL.Proofs.Layout
import GraphQL.Proofs.StringSpelling
import GraphQL.Proofs.TokenCut

/-!
# Line terminators as line feeds

`withFeeds` writes every line terminator of a text as a line feed. The text keeps its lines (`lines_withFeeds`), so
places keep their lines and columns, gaps stay gaps (`Gap.withFeeds`), block strings keep their values
(`Block.cook_withFeeds`), and each token is read again from its text (`Lexeme.read_withFeeds`).
-/

namespace GraphQL

/-- The text with a line feed for every line terminator, that is for a carriage return and the line feed after it, and
for one of them alone. -/
def withFeeds : List Char → List Char
  | [] => []
  | '\r' :: '\n' :: rest => '\n' :: withFeeds rest
  | c :: rest => (if c = '\r' then '\n' else c) :: withFeeds rest

private theorem withFeeds_cons {c : Char} (h : c ≠ '\r') (rest : List Char) :
    withFeeds (c :: rest) = c :: withFeeds rest := by
  rw [withFeeds.eq_3, if_neg h]
  rintro r rfl
  exact absurd rfl h

/-- A carriage return goes into the line feed after it. -/
theorem withFeeds_return_feed {rest : List Char} (h : rest.head? = some '\n') :
    withFeeds ('\r' :: rest) = withFeeds rest := by
  obtain ⟨tail, rfl⟩ := List.head?_eq_some_iff.1 h
  exact (withFeeds_cons (c := '\n') (by decide) tail).symm

private theorem withFeeds_return {rest : List Char} (h : rest.head? ≠ some '\n') :
    withFeeds ('\r' :: rest) = '\n' :: withFeeds rest := by
  rw [withFeeds.eq_3, if_pos rfl]
  rintro r - rfl
  exact h rfl

/-- The first character is the same, but for a carriage return. -/
theorem head?_withFeeds (text : List Char) :
    (withFeeds text).head? = text.head?.map fun c => if c = '\r' then '\n' else c := by
  cases text with
  | nil => rfl
  | cons c rest =>
    by_cases hc : c = '\r'
    · subst hc
      by_cases hrest : rest.head? = some '\n'
      · obtain ⟨tail, rfl⟩ := List.head?_eq_some_iff.1 hrest
        rfl
      · rw [withFeeds_return hrest]
        rfl
    · simp [withFeeds_cons hc, hc]

private theorem withFeeds_of_inline {text : List Char} (h : ∀ c ∈ text, isLineTerminator c = false) :
    withFeeds text = text := by
  induction text with
  | nil => rfl
  | cons c rest ih =>
    have hc : c ≠ '\r' := by
      rintro rfl
      exact absurd (h '\r' (by simp)) (by decide)
    rw [withFeeds_cons hc, ih fun d hd => h d (by simp [hd])]

/-- A text may be changed in parts, unless they part a line terminator. -/
theorem withFeeds_append {s t : List Char} (h : s.getLast? = some '\r' → t.head? ≠ some '\n') :
    withFeeds (s ++ t) = withFeeds s ++ withFeeds t := by
  induction s with
  | nil => rfl
  | cons c s ih =>
    have ih := ih fun hlast => h (by cases s <;> simp_all [List.getLast?_cons])
    by_cases hc : c = '\r'
    · subst hc
      cases s with
      | nil => rw [List.singleton_append, withFeeds_return (h rfl)]; rfl
      | cons d s =>
        by_cases hd : d = '\n'
        · subst hd
          rw [List.cons_append, withFeeds_return_feed rfl, withFeeds_return_feed rfl, ih]
        · rw [List.cons_append, withFeeds_return (by simpa using hd), withFeeds_return (by simpa using hd), ih]
          rfl
    · rw [List.cons_append, withFeeds_cons hc, withFeeds_cons hc, ih]
      rfl

/-- What begins a text is changed in the same way as in the text, but for a line terminator that it parts. -/
theorem withFeeds_mono {s t : List Char} (h : s <+: t) : withFeeds s <+: withFeeds t := by
  induction s generalizing t with
  | nil => exact List.nil_prefix
  | cons c s ih =>
    obtain ⟨t, rfl, hst⟩ : ∃ t', t = c :: t' ∧ s <+: t' := by
      obtain ⟨u, rfl⟩ := h
      exact ⟨s ++ u, rfl, List.prefix_append s u⟩
    have ih := ih hst
    by_cases hc : c = '\r'
    · subst hc
      cases s with
      | nil =>
        have hhead : (withFeeds ('\r' :: t)).head? = some '\n' := head?_withFeeds _
        obtain ⟨rest, hrest⟩ := List.head?_eq_some_iff.1 hhead
        exact ⟨rest, hrest.symm⟩
      | cons d s =>
        obtain ⟨u, rfl⟩ := hst
        by_cases hd : d = '\n'
        · subst hd
          rwa [withFeeds_return_feed rfl, withFeeds_return_feed rfl]
        · rw [withFeeds_return (by simpa using hd), withFeeds_return (by simpa using hd)]
          exact List.cons_prefix_cons.2 ⟨rfl, ih⟩
    · rw [withFeeds_cons hc, withFeeds_cons hc]
      exact List.cons_prefix_cons.2 ⟨rfl, ih⟩

/-- Characters within a line begin the changed text only if they begin the text. -/
theorem prefix_of_withFeeds {s text : List Char} (hs : ∀ c ∈ s, isLineTerminator c = false)
    (h : s <+: withFeeds text) : s <+: text := by
  induction s generalizing text with
  | nil => exact List.nil_prefix
  | cons c s ih =>
    have hc : isLineTerminator c = false := hs c (by simp)
    have hhead : (withFeeds text).head? = some c := by
      obtain ⟨rest, hrest⟩ := h
      rw [← hrest]
      rfl
    obtain ⟨d, hd, hdc⟩ := Option.map_eq_some_iff.1 ((head?_withFeeds text).symm.trans hhead)
    obtain ⟨rest, rfl⟩ := List.head?_eq_some_iff.1 hd
    split at hdc
    · rw [← hdc] at hc
      cases hc
    · rename_i hreturn
      subst hdc
      rw [withFeeds_cons hreturn] at h
      exact List.cons_prefix_cons.2 ⟨rfl, ih (fun e he => hs e (by simp [he])) (List.cons_prefix_cons.1 h).2⟩

/-- The lines of a text are the same, whichever terminators end them. -/
theorem lines_withFeeds (text : List Char) : lines (withFeeds text) = lines text := by
  induction text with
  | nil => rfl
  | cons c rest ih =>
    by_cases hc : c = '\r'
    · subst hc
      by_cases hrest : rest.head? = some '\n'
      · obtain ⟨tail, rfl⟩ := List.head?_eq_some_iff.1 hrest
        rw [withFeeds_return_feed rfl, ih]
        rfl
      · rw [withFeeds_return hrest, lines_terminator rfl (by simp), ih, lines_terminator rfl fun _ => hrest]
    · rw [withFeeds_cons hc]
      cases hterminator : isLineTerminator c with
      | true => rw [lines_terminator hterminator (absurd · hc), lines_terminator hterminator (absurd · hc), ih]
      | false => rw [lines_cons hterminator, lines_cons hterminator, ih]

/-- Only the bytes in front of a place are fewer. -/
theorem Position.after_withFeeds (text : List Char) :
    after (withFeeds text) = { after text with offset := utf8Length (withFeeds text) } := by
  obtain ⟨ls, last, hls⟩ := (List.eq_nil_or_concat (lines text)).resolve_left (lines_ne_nil text)
  rw [List.concat_eq_append] at hls
  rw [after_eq hls, after_eq ((lines_withFeeds text).trans hls)]

private theorem Gap.of_feed {rest : List Char} (h : Gap ('\n' :: rest)) : Gap rest := by
  cases h with
  | blank _ hrest => exact hrest

theorem Gap.withFeeds {gap : List Char} (h : Gap gap) : Gap (withFeeds gap) := by
  induction h with
  | nil => exact .nil
  | @blank c rest hc _ ih =>
    by_cases hreturn : c = '\r'
    · subst hreturn
      by_cases hrest : rest.head? = some '\n'
      · rwa [withFeeds_return_feed hrest]
      · rw [withFeeds_return hrest]
        exact .blank rfl ih
    · rw [withFeeds_cons hreturn]
      exact .blank hc ih
  | @comment body terminator rest hbody hterminator _ ih =>
    have hsplit : (body.getLast? = some '\r' → (terminator :: rest).head? ≠ some '\n') := by
      intro hlast
      exact absurd (hbody '\r' (List.mem_of_getLast? hlast)) (by decide)
    rw [withFeeds_cons (by decide), withFeeds_append hsplit, withFeeds_of_inline hbody]
    by_cases hreturn : terminator = '\r'
    · subst hreturn
      by_cases hrest : rest.head? = some '\n'
      · -- both characters of the terminator end the comment
        obtain ⟨tail, rfl⟩ := List.head?_eq_some_iff.1 hrest
        rw [withFeeds_cons (by decide)] at ih
        exact .comment hbody rfl ih.of_feed
      · rw [withFeeds_return hrest]
        exact .comment hbody rfl ih
    · rw [withFeeds_cons hreturn]
      exact .comment hbody hterminator ih

theorem LastGap.withFeeds {gap : List Char} (h : LastGap gap) : LastGap (withFeeds gap) := by
  cases h with
  | closed h => exact .closed h.withFeeds
  | @unclosed gap body h hbody =>
    have hcomment : ∀ c ∈ '#' :: body, isLineTerminator c = false := by simpa [isLineTerminator] using hbody
    rw [withFeeds_append (by simp), withFeeds_of_inline hcomment]
    exact .unclosed h.withFeeds hbody

namespace Block

private theorem head?_unescape {text : List Char} (h : (unescape text).head? = some '\n') : text.head? = some '\n' := by
  unfold unescape at h
  split at h
  · cases h
  · exact h
  · cases h

private theorem unescape_cons {c : Char} {rest : List Char} (h : c = '\\' → ¬ tripleQuote <+: rest) :
    unescape (c :: rest) = c :: unescape rest := by
  rw [unescape.eq_2]
  rintro tail rfl rfl
  exact h rfl ⟨tail, rfl⟩

/-- Escaped quotes are no line terminators. -/
theorem unescape_withFeeds (text : List Char) : unescape (withFeeds text) = withFeeds (unescape text) := by
  have hquotes : ∀ c ∈ tripleQuote, isLineTerminator c = false := by simp [tripleQuote, isLineTerminator]
  fun_induction unescape text with
  | case1 rest ih =>
    simp only [withFeeds_cons (show '\\' ≠ '\r' by decide), withFeeds_cons (show '"' ≠ '\r' by decide), unescape, ih]
  | case2 c rest hescape ih =>
    have hplain : c = '\\' → ¬ tripleQuote <+: rest := by
      rintro rfl ⟨tail, rfl⟩
      exact hescape tail rfl rfl
    by_cases hc : c = '\r'
    · subst hc
      by_cases hrest : rest.head? = some '\n'
      · obtain ⟨tail, rfl⟩ := List.head?_eq_some_iff.1 hrest
        have hhead : (unescape ('\n' :: tail)).head? = some '\n' := by
          rw [unescape_cons (by simp)]
          rfl
        rw [withFeeds_return_feed rfl, ih, withFeeds_return_feed hhead]
      · rw [withFeeds_return hrest, withFeeds_return (mt head?_unescape hrest), unescape_cons (by simp), ih]
    · rw [withFeeds_cons hc, withFeeds_cons hc, unescape_cons fun hslash => mt (prefix_of_withFeeds hquotes)
        (hplain hslash), ih]
  | case3 => rfl

theorem decode_withFeeds (text : List Char) : decode (withFeeds text) = decode text := by
  rw [decode, decode, unescape_withFeeds, lines_withFeeds]

/-- A literal with line feeds between its quotes. -/
def literalWithFeeds (raw : String) : String :=
  match between? tripleQuote raw.toList with
  | some text => String.ofList (tripleQuote ++ withFeeds text ++ tripleQuote)
  | none => raw

/-- A block string has the same value with any line terminators. -/
theorem cook_withFeeds (raw : String) : cook (literalWithFeeds raw) = cook raw := by
  unfold literalWithFeeds
  cases h : between? tripleQuote raw.toList with
  | none => rfl
  | some text => simp only [cook, h, String.toList_ofList, between?_append, decode_withFeeds]

end Block

/-! ### Tokens without line terminators -/

/-- A quoted string's characters on the line of its opening quote, and what follows them. Its length counts just these,
and a line feed that cuts the string off. -/
structure StringParts (length : Nat) (stop : StringEnd) (body rest : List Char) : Prop where
  inline : ∀ c ∈ body, isLineTerminator c = false
  closed : stop = .closed → length = body.length
  endOfInput : stop = .endOfInput → rest = [] ∧ length = body.length
  endOfLine : stop = .endOfLine →
    rest.head? = some '\n' ∧ length = body.length + 1 ∨ rest.head? = some '\r' ∧ length = body.length

private theorem StringParts.cons {length : Nat} {stop : StringEnd} {body rest : List Char} {c : Char}
    (hc : isLineTerminator c = false) (h : StringParts length stop body rest) :
    StringParts (length + 1) stop (c :: body) rest where
  inline := List.forall_mem_cons.2 ⟨hc, h.inline⟩
  closed hstop := by rw [h.closed hstop, List.length_cons]
  endOfInput hstop := by simpa using h.endOfInput hstop
  endOfLine hstop := by simpa using h.endOfLine hstop

/-- Any text after an opening quote has such a front. -/
theorem exists_stringParts {text : List Char} {n : Nat} {stop : StringEnd} (h : quotedLength text = (n, stop)) :
    ∃ body rest, text = body ++ rest ∧ StringParts n stop body rest := by
  fun_induction quotedLength text generalizing n with
  | case1 =>
    cases h
    exact ⟨[], [], rfl, by constructor <;> simp⟩
  | case2 rest =>
    cases h
    exact ⟨['"'], rest, rfl, by constructor <;> simp [isLineTerminator]⟩
  | case3 rest =>
    cases h
    exact ⟨[], '\n' :: rest, rfl, by constructor <;> simp⟩
  | case4 rest =>
    cases h
    exact ⟨[], '\r' :: rest, rfl, by constructor <;> simp⟩
  | case5 c rest hterminator m e hlength ih =>
    -- the backslash does not take a line terminator along
    obtain ⟨rfl, rfl⟩ := Prod.mk.inj h
    obtain ⟨body, tail, htext, hparts⟩ := ih hlength
    exact ⟨'\\' :: body, tail, by rw [htext, List.cons_append], hparts.cons rfl⟩
  | case6 c rest hterminator m e hlength ih =>
    obtain ⟨rfl, rfl⟩ := Prod.mk.inj h
    obtain ⟨body, tail, rfl, hparts⟩ := ih hlength
    have hc : isLineTerminator c = false := by simpa using hterminator
    exact ⟨'\\' :: c :: body, tail, rfl, (hparts.cons hc).cons rfl⟩
  | case7 c rest hquote hfeed hreturn hescape m e hlength ih =>
    obtain ⟨rfl, rfl⟩ := Prod.mk.inj h
    obtain ⟨body, tail, rfl, hparts⟩ := ih hlength
    have hc : isLineTerminator c = false := by
      simp only [isLineTerminator, Bool.or_eq_false_iff, decide_eq_false_iff_not]
      exact ⟨hfeed, hreturn⟩
    exact ⟨c :: body, tail, rfl, hparts.cons hc⟩

theorem Token.Kind.Genuine.inline_string {raw : String} (h : (string raw).Genuine) :
    ∀ c ∈ raw.toList, isLineTerminator c = false := by
  obtain ⟨taken, htaken, hclosed⟩ := h.exists_quoted
  obtain ⟨body, tail, hbody, hparts⟩ := exists_stringParts (hclosed [])
  have htail : tail = [] := by
    have hlength := congrArg List.length hbody
    rw [List.append_nil, List.length_append, hparts.closed rfl] at hlength
    exact List.length_eq_zero_iff.1 (by omega)
  rw [htail, List.append_nil, List.append_nil] at hbody
  rw [htaken, hbody]
  exact List.forall_mem_cons.2 ⟨rfl, hparts.inline⟩

/-- Only block strings hold line terminators. -/
theorem Token.Kind.Genuine.inline {kind : Token.Kind} (h : kind.Genuine) (hblock : ∀ raw, kind ≠ .blockString raw)
    {w : String} (hw : kind.spelling? = some w) : ∀ c ∈ w.toList, isLineTerminator c = false := by
  have hword (hname : kind.asName? = some w) : ∀ c ∈ w.toList, isLineTerminator c = false := by
    have hkind := h.eq_wordKind hname
    rw [hkind] at h
    obtain ⟨-, -, -, hall, -⟩ := h.read_word
    exact fun c hc => isLineTerminator_eq_false (by decide) (hall c hc)
  have hnumber (hraw : kind.numberText? = some w) : ∀ c ∈ w.toList, isLineTerminator c = false := by
    obtain ⟨-, -, -, hall, -⟩ := h.read_number hraw
    exact fun c hc => isLineTerminator_eq_false (by decide) (hall c hc)
  cases kind with
  | punctuator sign =>
    rw [← Option.some.inj hw]
    cases sign <;> simp [Punctuator.text, isLineTerminator]
  | name text => exact hword hw
  | trueWord => exact hword hw
  | falseWord => exact hword hw
  | nullWord => exact hword hw
  | int text => exact hnumber hw
  | float text => exact hnumber hw
  | string text =>
    rw [← Option.some.inj hw]
    exact h.inline_string
  | blockString text => exact absurd rfl (hblock text)
  | endOfInput =>
    rw [← Option.some.inj hw]
    simp
  | error cause => cases hw

/-- Two quotes stand in front of the end of a block string only if they did before. -/
theorem quotes_of_withFeeds {body z rest : List Char}
    (h : withFeeds body ++ (Block.tripleQuote ++ z) = '"' :: '"' :: rest) (w : List Char) :
    ∃ rest', body ++ (Block.tripleQuote ++ w) = '"' :: '"' :: rest' := by
  have hquotes : ∀ c ∈ Block.tripleQuote, isLineTerminator c = false := by simp [Block.tripleQuote, isLineTerminator]
  have hchanged : withFeeds (body ++ Block.tripleQuote) = withFeeds body ++ Block.tripleQuote := by
    rw [withFeeds_append (by simp [Block.tripleQuote]), withFeeds_of_inline hquotes]
  have hfront : ['"', '"'] <+: withFeeds (body ++ Block.tripleQuote) := by
    have hquoted : withFeeds body ++ Block.tripleQuote <+: withFeeds body ++ (Block.tripleQuote ++ z) :=
      ⟨z, List.append_assoc _ _ _⟩
    rw [hchanged]
    exact List.prefix_of_prefix_length_le ⟨rest, h.symm⟩ hquoted (by simp [Block.tripleQuote])
  obtain ⟨rest', hrest'⟩ := prefix_of_withFeeds (by simp [isLineTerminator]) hfront
  exact ⟨rest' ++ w, by rw [← List.append_assoc, ← hrest']; rfl⟩

/-- A block string that is closed is closed by the same quotes when its text is written with line feeds. -/
theorem blockLength_withFeeds {escaped : Bool} {text : List Char} {n : Nat}
    (h : blockLength escaped text = (n, .closed)) :
    ∃ body rest, text = body ++ (Block.tripleQuote ++ rest) ∧ body.length + 3 = n ∧ ∀ z,
      blockLength escaped (withFeeds body ++ (Block.tripleQuote ++ z)) = ((withFeeds body).length + 3, .closed) := by
  fun_induction blockLength escaped text generalizing n with
  | case1 rest m e hlength ih =>
    obtain ⟨rfl, rfl⟩ := Prod.mk.inj h
    obtain ⟨body, tail, rfl, hbody, hz⟩ := ih hlength
    have hchanged : withFeeds ('"' :: '"' :: '"' :: body) = '"' :: '"' :: '"' :: withFeeds body := by
      rw [withFeeds_cons (by decide), withFeeds_cons (by decide), withFeeds_cons (by decide)]
    refine ⟨'"' :: '"' :: '"' :: body, tail, rfl, by simp [← hbody], fun z => ?_⟩
    simp only [hchanged, List.cons_append, blockLength, if_true, hz, List.length_cons]
  | case2 escaped rest hescaped =>
    cases h
    obtain rfl : escaped = false := by simpa using hescaped
    exact ⟨[], rest, rfl, rfl, fun z => rfl⟩
  | case3 escaped c rest htriple m e hlength ih =>
    obtain ⟨rfl, rfl⟩ := Prod.mk.inj h
    obtain ⟨body, tail, rfl, hbody, hz⟩ := ih hlength
    refine ⟨c :: body, tail, rfl, by simp [← hbody], fun z => ?_⟩
    have hz := hz z
    by_cases hc : c = '\r'
    · subst hc
      have hfeed (escaped : Bool) (text : List Char) : blockLength escaped ('\n' :: text) =
          ((blockLength false text).1 + 1, (blockLength false text).2) := rfl
      by_cases hhead : body.head? = some '\n'
      · -- the line feed behind it follows on no backslash either way
        obtain ⟨body, rfl⟩ := List.head?_eq_some_iff.1 hhead
        rw [withFeeds_return_feed rfl]
        rw [withFeeds_cons (by decide), List.cons_append, hfeed] at hz ⊢
        exact hz
      · have hz : blockLength false (withFeeds body ++ (Block.tripleQuote ++ z)) = _ := hz
        rw [withFeeds_return hhead, List.cons_append, hfeed, hz]
        rfl
    · rw [withFeeds_cons hc, List.cons_append, blockLength, hz]
      · rfl
      · intro rest hquote hrest
        obtain ⟨rest', hrest'⟩ := quotes_of_withFeeds hrest tail
        exact htriple rest' hquote hrest'
  | case4 => cases h

namespace Lexeme

variable {m : Relocation} {ch : Char} {cs rest : List Char} {kind : Token.Kind}

private theorem text_of_read (h : read ch (cs ++ rest) = ⟨kind, ch :: cs, rest⟩) {w : String}
    (hw : kind.spelling? = some w) : w.toList = ch :: cs := by
  have hspelled := read_spelled ch (cs ++ rest)
  rw [h] at hspelled
  rw [hspelled w hw, String.toList_ofList]

/-- A token on one line is read again in front of the changed rest. -/
theorem read_withFeeds_inline (h : read ch (cs ++ rest) = ⟨kind, ch :: cs, rest⟩) (hkind : ¬ kind.IsLast)
    (hblock : ∀ raw, kind ≠ .blockString raw) :
    (∀ c ∈ ch :: cs, isLineTerminator c = false) ∧
      read ch (cs ++ withFeeds rest) = ⟨kind, ch :: cs, withFeeds rest⟩ := by
  have hgenuine : kind.Genuine := .inr ⟨ch, cs ++ rest, by rw [h]⟩
  obtain ⟨w, hw⟩ := exists_spelling hkind
  have htext := text_of_read h hw
  refine ⟨htext ▸ hgenuine.inline hblock hw, ?_⟩
  by_cases hreturn : rest.head? = some '\r'
  · -- a line feed takes the place of the carriage return, and neither goes on with the token
    have hopens : Opens (withFeeds rest) := by
      intro c hc
      rw [head?_withFeeds, hreturn] at hc
      obtain rfl : '\n' = c := Option.some.inj hc
      decide
    obtain ⟨c, cs', hcs, hread⟩ := hgenuine.read_spelling hkind hw
    obtain ⟨rfl, rfl⟩ := List.cons.inj (htext.symm.trans hcs)
    exact hread _ hopens
  · have hbegins : BeginsLike (withFeeds rest) rest := by
      intro c hc
      rw [head?_withFeeds] at hc
      obtain ⟨d, hd, rfl⟩ := Option.map_eq_some_iff.1 hc
      have hplain : d ≠ '\r' := by
        rintro rfl
        exact hreturn hd
      rwa [if_neg hplain]
    have herror : (read ch (cs ++ rest)).kind.isError = false := by
      rw [h, ← Bool.not_eq_true]
      exact fun herror => hkind (.inr herror)
    have hagain := read_cut (z := withFeeds rest) (congrArg Lexeme.text h) herror (by rwa [h])
    rwa [h] at hagain

/-- What a block string is made of. -/
theorem exists_body_of_read {raw : String} (h : read ch (cs ++ rest) = ⟨.blockString raw, ch :: cs, rest⟩) :
    ch = '"' ∧ ∃ body, cs = '"' :: '"' :: (body ++ Block.tripleQuote) ∧ ∀ z,
      blockLength false (withFeeds body ++ (Block.tripleQuote ++ z)) = ((withFeeds body).length + 3, .closed) := by
  have hgenuine : (Token.Kind.blockString raw).Genuine := .inr ⟨ch, cs ++ rest, by rw [h]⟩
  obtain ⟨cs', hcs', -⟩ := hgenuine.read_string rfl
  obtain ⟨rfl, rfl⟩ := List.cons.inj ((text_of_read h rfl).symm.trans hcs')
  refine ⟨rfl, ?_⟩
  have hread : read '"' (cs ++ rest) = readString ('"' :: (cs ++ rest)) := rfl
  rw [hread] at h
  by_cases hquotes : ∃ body, cs ++ rest = '"' :: '"' :: body
  · obtain ⟨text, htext⟩ := hquotes
    rw [htext] at h
    cases hlength : blockLength false text with
    | mk n e =>
      cases e with
      | closed =>
        obtain ⟨body, tail, rfl, rfl, hz⟩ := blockLength_withFeeds hlength
        have htaken : blockLength false (body ++ Block.tripleQuote ++ tail) =
            ((body ++ Block.tripleQuote).length, .closed) := by
          rw [List.append_assoc, hlength]
          simp [Block.tripleQuote]
        rw [← List.append_assoc, readString_block htaken] at h
        exact ⟨body, (List.cons.inj (Lexeme.mk.inj h).2.1).2.symm, hz⟩
      | endOfLine | endOfInput => simp [readString, hlength] at h
  · have hnot : ∀ body, cs ++ rest ≠ '"' :: '"' :: body := fun body h => hquotes ⟨body, h⟩
    simp only [readString] at h
    split at h
    · rename_i body hbody
      exact absurd (List.cons.inj hbody).2 (hnot body)
    · split at h <;> cases h

/-- A block string is read again from its changed text in front of the changed rest. -/
theorem read_withFeeds_block {raw : String} (h : read ch (cs ++ rest) = ⟨.blockString raw, ch :: cs, rest⟩) :
    (ch :: cs).getLast? = some '"' ∧ ∃ cs', withFeeds (ch :: cs) = ch :: cs' ∧
      read ch (cs' ++ withFeeds rest) = ⟨.blockString (Block.literalWithFeeds raw), ch :: cs', withFeeds rest⟩ := by
  have hraw : raw.toList = ch :: cs := text_of_read h rfl
  obtain ⟨rfl, body, rfl, hz⟩ := exists_body_of_read h
  have hquotes : withFeeds Block.tripleQuote = Block.tripleQuote :=
    withFeeds_of_inline (by simp [Block.tripleQuote, isLineTerminator])
  have hchanged : withFeeds ('"' :: '"' :: '"' :: (body ++ Block.tripleQuote)) =
      '"' :: '"' :: '"' :: (withFeeds body ++ Block.tripleQuote) := by
    rw [withFeeds_cons (by decide), withFeeds_cons (by decide), withFeeds_cons (by decide),
      withFeeds_append (by simp [Block.tripleQuote]), hquotes]
  have hliteral : Block.literalWithFeeds raw =
      String.ofList ('"' :: '"' :: '"' :: (withFeeds body ++ Block.tripleQuote)) := by
    have hbetween : between? Block.tripleQuote raw.toList = some body := by
      rw [hraw]
      exact between?_append
    simp only [Block.literalWithFeeds, hbetween]
    rfl
  have hlength : (withFeeds body ++ Block.tripleQuote).length = (withFeeds body).length + 3 := by
    simp [Block.tripleQuote]
  have hclosed := hz (withFeeds rest)
  rw [← List.append_assoc, ← hlength] at hclosed
  refine ⟨by simp [Block.tripleQuote, List.getLast?_append, List.getLast?_cons], _, hchanged, ?_⟩
  rw [hliteral]
  exact readString_block hclosed

/-- Every token is read again from its changed text in front of the changed rest, and its text ends in no carriage
return. -/
theorem read_withFeeds (hm : m.block = Block.literalWithFeeds) (h : read ch (cs ++ rest) = ⟨kind, ch :: cs, rest⟩)
    (hkind : ¬ kind.IsLast) : (ch :: cs).getLast? ≠ some '\r' ∧ ∃ cs', withFeeds (ch :: cs) = ch :: cs' ∧
      read ch (cs' ++ withFeeds rest) = ⟨m.kind kind, ch :: cs', withFeeds rest⟩ := by
  by_cases hblock : ∃ raw, kind = .blockString raw
  · obtain ⟨raw, rfl⟩ := hblock
    obtain ⟨hlast, hagain⟩ := read_withFeeds_block h
    rw [hlast, Relocation.kind, hm]
    exact ⟨by decide, hagain⟩
  · have hblock : ∀ raw, kind ≠ .blockString raw := fun raw h => hblock ⟨raw, h⟩
    obtain ⟨hinline, hread⟩ := read_withFeeds_inline h hkind hblock
    refine ⟨fun hlast => absurd (hinline '\r' (List.mem_of_getLast? hlast)) (by decide), cs,
      withFeeds_of_inline hinline, ?_⟩
    rw [(m.kind_cases kind).resolve_right fun h => h.elim hblock]
    exact hread

end Lexeme

end GraphQL
