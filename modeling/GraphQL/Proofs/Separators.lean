import GraphQL.Token.Lexeme

/-!
# What separates tokens

A gap is a text that separates tokens: blanks, and comments together with the terminators that end them. A comment
that nothing ends may only stand where the text ends. Main statements: what the lexer takes off the front of a text
is a gap (`gap_of_ignored`), and a gap in front of a text is taken off with what the text
itself begins with (`ignored_gap_append`).
-/

namespace GraphQL

/-- White space, line terminators, commas, byte order marks, and comments up to and with a line terminator. -/
inductive Gap : List Char → Prop where
  | nil : Gap []
  | blank {c : Char} {rest : List Char} (hc : isBlank c = true) (hrest : Gap rest) : Gap (c :: rest)
  | comment {body : List Char} {terminator : Char} {rest : List Char}
    (hbody : ∀ c ∈ body, isLineTerminator c = false) (hterminator : isLineTerminator terminator = true)
    (hrest : Gap rest) : Gap ('#' :: (body ++ terminator :: rest))

/-- A gap, or a gap and a comment to the end of the text. -/
inductive LastGap : List Char → Prop where
  | closed {gap : List Char} (h : Gap gap) : LastGap gap
  | unclosed {gap body : List Char} (h : Gap gap) (hbody : ∀ c ∈ body, isLineTerminator c = false) :
    LastGap (gap ++ '#' :: body)

private theorem Gap.append {gap more : List Char} (h : Gap gap) (hmore : Gap more) : Gap (gap ++ more) := by
  induction h with
  | nil => exact hmore
  | blank hc _ ih => exact .blank hc ih
  | comment hbody hterminator _ ih => simpa using Gap.comment hbody hterminator ih

private theorem Gap.append_lastGap {gap last : List Char} (h : Gap gap) (hlast : LastGap last) :
    LastGap (gap ++ last) := by
  cases hlast with
  | closed hlast => exact .closed (h.append hlast)
  | unclosed hlast hbody =>
    rw [← List.append_assoc]
    exact .unclosed (h.append hlast) hbody

theorem isBlank_of_isLineTerminator {c : Char} (h : isLineTerminator c = true) : isBlank c = true := by
  simp only [isLineTerminator, Bool.or_eq_true, decide_eq_true_eq] at h
  rcases h with rfl | rfl <;> rfl

private theorem ignoredLength_blank {c : Char} (h : isBlank c = true) (rest : List Char) :
    ignoredLength false (c :: rest) = ignoredLength false rest + 1 := by
  simp [ignoredLength, h]

/-- Inside a comment all is taken up to a line terminator. -/
theorem ignoredLength_comment {body : List Char} (h : ∀ c ∈ body, isLineTerminator c = false)
    (rest : List Char) : ignoredLength true (body ++ rest) = ignoredLength true rest + body.length := by
  induction body with
  | nil => rfl
  | cons c body ih =>
    have hc : isLineTerminator c = false := h c (by simp)
    have htail := ih fun d hd => h d (by simp [hd])
    simp only [List.cons_append, ignoredLength, hc, Bool.not_false, Bool.and_self, if_true, htail,
      List.length_cons, Nat.add_assoc]

private theorem ignoredLength_hash (rest : List Char) :
    ignoredLength false ('#' :: rest) = ignoredLength true rest + 1 := rfl

private theorem ignoredLength_terminator {c : Char} (h : isLineTerminator c = true) (rest : List Char) :
    ignoredLength true (c :: rest) = ignoredLength false rest + 1 := by
  simp [ignoredLength, h, isBlank_of_isLineTerminator h]

private theorem ignoredLength_gap {gap : List Char} (h : Gap gap) (rest : List Char) :
    ignoredLength false (gap ++ rest) = ignoredLength false rest + gap.length := by
  induction h with
  | nil => rfl
  | blank hc _ ih => rw [List.cons_append, ignoredLength_blank hc, ih, List.length_cons, Nat.add_assoc]
  | comment hbody hterminator _ ih =>
    rw [List.cons_append, ignoredLength_hash, List.append_assoc, ignoredLength_comment hbody, List.cons_append,
      ignoredLength_terminator hterminator, ih]
    simp only [List.length_cons, List.length_append]
    omega

/-- A gap in front of a text is taken off the text too. -/
theorem ignored_gap_append {gap : List Char} (h : Gap gap) (rest : List Char) :
    ignored (gap ++ rest) = (gap ++ (ignored rest).1, (ignored rest).2) := by
  simp only [ignored, ignoredLength_gap h]
  rw [Nat.add_comm, List.take_length_add_append, List.drop_length_add_append]

/-- Of a text that is a last gap, nothing is left. -/
theorem ignored_lastGap {gap : List Char} (h : LastGap gap) : ignored gap = (gap, []) := by
  cases h with
  | closed h => simpa [ignored, ignoredLength] using ignored_gap_append h []
  | unclosed h hbody =>
    rename_i gap body
    have hcomment : ignoredLength false ('#' :: body) = body.length + 1 := by
      have := ignoredLength_comment hbody []
      rw [List.append_nil] at this
      rw [ignoredLength_hash, this, ignoredLength, Nat.zero_add]
    rw [ignored_gap_append h]
    simp [ignored, hcomment]

/-- A text that begins with no separator. -/
def StartsToken (text : List Char) : Prop := ∀ c ∈ text.head?, isBlank c = false ∧ c ≠ '#'

theorem ignored_of_startsToken {text : List Char} (h : StartsToken text) : ignored text = ([], text) := by
  cases text with
  | nil => rfl
  | cons c rest =>
    obtain ⟨hblank, hhash⟩ := h c rfl
    simp [ignored, ignoredLength, hblank, hhash]

/-- A text has no line terminator, or it has a first one. -/
theorem inline_or_exists_terminator (text : List Char) :
    (∀ c ∈ text, isLineTerminator c = false) ∨ ∃ line terminator rest, text = line ++ terminator :: rest ∧
      (∀ c ∈ line, isLineTerminator c = false) ∧ isLineTerminator terminator = true := by
  induction text with
  | nil => exact .inl (List.forall_mem_nil _)
  | cons c text ih =>
    cases hc : isLineTerminator c with
    | true => exact .inr ⟨[], c, text, rfl, List.forall_mem_nil _, hc⟩
    | false =>
      rcases ih with h | ⟨line, terminator, rest, rfl, hline, hterminator⟩
      · exact .inl (List.forall_mem_cons.2 ⟨hc, h⟩)
      · exact .inr ⟨c :: line, terminator, rest, rfl, List.forall_mem_cons.2 ⟨hc, hline⟩, hterminator⟩

/-- Every text begins with a gap and a token, or it is a last gap as a whole. -/
theorem exists_gap (text : List Char) :
    LastGap text ∨ ∃ gap rest, text = gap ++ rest ∧ Gap gap ∧ StartsToken rest := by
  induction hn : text.length using Nat.strongRecOn generalizing text with
  | ind n ih =>
    -- what stands behind a gap is shorter
    have hbehind {front rest : List Char} (h : text = front ++ rest) (hfront : Gap front) (hne : front ≠ []) :
        LastGap text ∨ ∃ gap rest, text = gap ++ rest ∧ Gap gap ∧ StartsToken rest := by
      have hlength := List.length_pos_iff.2 hne
      rw [h, List.length_append] at hn
      rw [h]
      rcases ih rest.length (by omega) rest rfl with hlast | ⟨gap, tail, rfl, hgap, htail⟩
      · exact .inl (hfront.append_lastGap hlast)
      · exact .inr ⟨front ++ gap, tail, (List.append_assoc ..).symm, hfront.append hgap, htail⟩
    cases text with
    | nil => exact .inl (.closed .nil)
    | cons c text =>
      by_cases hblank : isBlank c = true
      · exact hbehind (List.singleton_append (x := c)).symm (.blank hblank .nil) (by simp)
      · by_cases hhash : c = '#'
        · subst hhash
          rcases inline_or_exists_terminator text with hbody | ⟨body, terminator, rest, rfl, hbody, hterminator⟩
          · exact .inl (.unclosed .nil hbody)
          · have hsplit : '#' :: (body ++ terminator :: rest) = '#' :: (body ++ [terminator]) ++ rest := by simp
            exact hbehind hsplit (.comment hbody hterminator .nil) (by simp)
        · refine .inr ⟨[], c :: text, rfl, .nil, ?_⟩
          simpa [StartsToken] using And.intro (Bool.eq_false_iff.2 hblank) hhash

/-- What is taken off the front of a text is a gap, or the last gap where nothing is left. -/
theorem gap_of_ignored (text : List Char) :
    ((ignored text).2 = [] ∧ LastGap (ignored text).1) ∨ Gap (ignored text).1 := by
  rcases exists_gap text with h | ⟨gap, rest, rfl, hgap, hrest⟩
  · rw [ignored_lastGap h]
    exact .inl ⟨rfl, h⟩
  · rw [ignored_gap_append hgap, ignored_of_startsToken hrest, List.append_nil]
    exact .inr hgap

end GraphQL
