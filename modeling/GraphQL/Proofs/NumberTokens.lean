import GraphQL.Proofs.NumberLiterals
import GraphQL.Proofs.TokenLines

/-!
# Tokens of numbers

Which number literals the lexer reads. The scanner succeeds exactly when the longest literal at the front of the text is
followed by neither a digit, a dot, a letter nor an underscore (`Number.scan_eq_ok_iff`): scanned with nothing behind
it, a longer literal would end in the same place as the shorter one. So a token that starts with a minus or a digit is
that literal, or else an error (`tokens_number`).
-/

namespace GraphQL

namespace Number

/-- The longest number literal that the text begins with. -/
structure IsLongest (literal text : List Char) : Prop where
  isLiteral : IsLiteral literal
  begins : literal <+: text
  longest : ∀ other, IsLiteral other → other <+: text → other.length ≤ literal.length

/-- A number is scanned exactly when the longest literal in front is not run into by what follows it. -/
theorem scan_eq_ok_iff {literal rest : List Char} :
    scan (literal ++ rest) = .ok ⟨literal, rest⟩ ↔ IsLongest literal (literal ++ rest) ∧ Stops rest := by
  constructor
  · intro h
    obtain ⟨hliteral, hstops⟩ := isLiteral_of_scan h
    refine ⟨⟨hliteral, List.prefix_append _ _, fun other hother hbegins => ?_⟩, hstops⟩
    rw [← Nat.not_lt]
    intro hlt
    obtain ⟨more, rfl⟩ := List.prefix_of_prefix_length_le (List.prefix_append literal rest) hbegins (Nat.le_of_lt hlt)
    have hmore : Stops more := by
      obtain ⟨tail, rfl⟩ := (List.prefix_append_right_inj literal).1 hbegins
      intro c hc
      exact hstops c (by rw [List.head?_append, Option.mem_def.1 hc]; rfl)
    -- what makes the literal longer would stop the shorter one
    have hlong : scan (literal ++ more ++ []) = .ok ⟨literal ++ more, []⟩ := scan_literal hother (by simp [Stops])
    rw [List.append_nil, scan_literal hliteral hmore] at hlong
    obtain rfl : more = [] := congrArg Scan.rest (Except.ok.inj hlong)
    simp at hlt
  · rintro ⟨h, hrest⟩
    exact scan_literal h.isLiteral hrest

/-- A literal is a float when it has a fraction or an exponent. -/
theorem isFloat_iff {literal integer fraction exponent : List Char} (h : Parts literal integer fraction exponent) :
    isFloat literal = true ↔ fraction ≠ [] ∨ exponent ≠ [] := by
  obtain ⟨rfl, hinteger, hfraction, hexponent⟩ := h
  have hdigit {c : Char} (hc : c.isDigit) : ¬ (c = '.' ∨ c = 'e' ∨ c = 'E') := by
    rintro (rfl | rfl | rfl) <;> cases hc
  have hwhole {whole : List Char} (h : IsWhole whole) : isFloat whole = false := by
    rw [← Bool.not_eq_true, isFloat, List.any_eq_true]
    rintro ⟨c, hc, hmark⟩
    exact hdigit (h.isDigits.isDigit c hc) (by simpa [or_assoc] using hmark)
  have hinteger : isFloat integer = false := by
    cases hinteger with
    | pos h => exact hwhole h
    | neg h =>
      rw [isFloat, List.any_cons]
      exact hwhole h
  have hfraction : isFloat fraction = true ↔ fraction ≠ [] := by
    cases hfraction with
    | nil => simp [isFloat]
    | digits => simp [isFloat]
  have hexponent : isFloat exponent = true ↔ exponent ≠ [] := by
    cases hexponent with
    | nil => simp [isFloat]
    | digits hmark | signed hmark => rcases hmark with rfl | rfl <;> simp [isFloat]
  simp only [isFloat, List.any_append, Bool.or_eq_true] at hinteger hfraction hexponent ⊢
  rw [hfraction, hexponent, hinteger]
  simp

/-- A literal has the kind of an integer or a float. -/
theorem read_kind_iff {text : List Char} {literal : String} :
    (read text).kind.numberText? = some literal ↔
      ∃ after, text = literal.toList ++ after ∧ IsLongest literal.toList text ∧ Stops after := by
  have hscan : (read text).kind.numberText? = some literal ↔ ∃ after, scan text = .ok ⟨literal.toList, after⟩ := by
    rw [read]
    split
    · rename_i s hscan
      have hkind : (if isFloat s.taken then Token.Kind.float (String.ofList s.taken)
          else .int (String.ofList s.taken)).numberText? = some (String.ofList s.taken) := by
        split <;> rfl
      rw [hkind, Option.some.injEq]
      constructor
      · rintro rfl
        exact ⟨s.rest, by rw [hscan, String.toList_ofList]⟩
      · rintro ⟨after, heq⟩
        rw [hscan] at heq
        rw [Except.ok.inj heq, String.ofList_toList]
    · rename_i hscan
      simp [hscan, Token.Kind.numberText?]
    · rename_i hscan
      simp [hscan, Token.Kind.numberText?]
  rw [hscan]
  refine exists_congr fun after => ?_
  constructor
  · intro h
    have hparts := scan_all text
    rw [h] at hparts
    obtain rfl : literal.toList ++ after = text := hparts
    exact ⟨rfl, scan_eq_ok_iff.1 h⟩
  · rintro ⟨rfl, h⟩
    exact scan_eq_ok_iff.2 h

private theorem read_kind_eq_float_iff {text : List Char} {literal : String}
    (h : (read text).kind.numberText? = some literal) :
    (read text).kind = .float literal ↔ isFloat literal.toList = true := by
  rw [read] at h ⊢
  split at h
  · rename_i s _
    dsimp only at h ⊢
    split at h <;> obtain rfl := Option.some.inj h <;> simp_all
  · cases h
  · cases h

/-- What is no literal is an error. -/
theorem read_isError {text : List Char} (h : (read text).kind.numberText? = none) :
    (read text).kind.isError = true := by
  rw [read] at h ⊢
  split at h
  · dsimp only at h
    split at h <;> cases h
  · rfl
  · rfl

/-- The letters, `A` to `Z` and `a` to `z`, as code points. -/
theorem isAlpha_iff (c : Char) :
    c.isAlpha = true ↔ 65 ≤ c.toNat ∧ c.toNat ≤ 90 ∨ 97 ≤ c.toNat ∧ c.toNat ≤ 122 := by
  have hletters : c.isAlpha = (decide ('A'.val ≤ c.val ∧ c.val ≤ 'Z'.val) ||
      (decide ('a'.val ≤ c.val) && decide (c.val ≤ 'z'.val))) := rfl
  simp [hletters, UInt32.le_iff_toNat_le]

private theorem isNameStart_eq_false_of_isDigit {c : Char} (h : c.isDigit) : isNameStart c = false := by
  have hunderscore : c ≠ '_' := by
    rintro rfl
    cases h
  have hdigit : 48 ≤ c.toNat ∧ c.toNat ≤ 57 := by
    simpa [Char.isDigit, UInt32.le_iff_toNat_le] using h
  have halpha : ¬c.isAlpha := by
    rw [isAlpha_iff]
    omega
  simp [isNameStart, hunderscore, halpha]

end Number

/-- The token of a text that starts with a minus or a digit is that of a number. -/
theorem Lexeme.read_number {c : Char} (h : c = '-' ∨ c.isDigit) (rest : List Char) :
    read c rest = Number.read (c :: rest) := by
  rcases h with rfl | h
  · rfl
  · have hsign : Punctuator.ofChar? c = none := ofChar?_of_isNameContinue (by simp [isNameContinue, Char.isAlphanum, h])
    have hdot : c ≠ '.' := by
      rintro rfl
      cases h
    have hquote : c ≠ '"' := by
      rintro rfl
      cases h
    rw [read, hsign]
    simp [hdot, hquote, Number.isNameStart_eq_false_of_isDigit h, h]

private theorem Token.Kind.numberText?_eq_some_iff {kind : Token.Kind} {literal : String} :
    kind.numberText? = some literal ↔ kind = .int literal ∨ kind = .float literal := by
  cases kind <;> simp [numberText?]

/-- A token that starts with a minus or a digit is an integer or a float exactly when the longest literal at its start
is followed by neither a digit, a dot, a letter nor an underscore. It is then that literal, a float if the literal has a
fraction or an exponent; otherwise it is an error, and the last token. -/
theorem tokens_number {source : String} {t : Token} {front rest : List Char} (ht : t ∈ tokens source)
    (hsource : source.toList = front ++ rest) (hfirst : t.span.first = .after front)
    (hstart : ∃ c ∈ rest.head?, c = '-' ∨ c.isDigit) :
    (∀ literal, t.kind = .int literal ∨ t.kind = .float literal ↔
      ∃ after, rest = literal.toList ++ after ∧ Number.IsLongest literal.toList rest ∧
        ∀ c ∈ after.head?, c.isDigit = false ∧ c ≠ '.' ∧ c.isAlpha = false ∧ c ≠ '_') ∧
    (∀ literal integer fraction exponent, t.kind = .int literal ∨ t.kind = .float literal →
      Number.Parts literal.toList integer fraction exponent →
        (t.kind = .float literal ↔ fraction ≠ [] ∨ exponent ≠ [])) ∧
    ((∀ literal, ¬ (t.kind = .int literal ∨ t.kind = .float literal)) →
      t.kind.isError = true ∧ ∃ ts, tokens source = ts ++ [t]) := by
  obtain ⟨c, hhead, hc⟩ := hstart
  obtain ⟨rest, rfl⟩ := List.head?_eq_some_iff.1 hhead
  have hkind : t.kind = (Number.read (c :: rest)).kind := by
    rw [eq_read_of_first ht hsource hfirst, Lexeme.read_number hc]
  simp only [hkind, ← Token.Kind.numberText?_eq_some_iff, ← Number.stops_iff]
  refine ⟨fun literal => Number.read_kind_iff, fun literal _ _ _ hliteral hparts => ?_, fun hnone => ?_⟩
  · rw [Number.read_kind_eq_float_iff hliteral, Number.isFloat_iff hparts]
  · have herror := Number.read_isError (Option.eq_none_iff_forall_ne_some.2 hnone)
    exact ⟨herror, exists_eq_append_of_isError ht (hkind ▸ herror)⟩

/-- A float in front of a bracket, and the mark of an exponent without digits, where the longest literal ends. -/
theorem tokens_number_of_marks :
    (∃ t ∈ tokens "[-1.50e+3]", t.span.first = .after ['['] ∧ t.kind = .float "-1.50e+3" ∧
      Number.IsLongest "-1.50e+3".toList ['-', '1', '.', '5', '0', 'e', '+', '3', ']']) ∧
    ∃ t ∈ tokens "[1.5e]", t.span.first = .after ['['] ∧ t.kind.isError = true ∧
      ∃ ts, tokens "[1.5e]" = ts ++ [t] := by
  constructor
  · have htext : "[-1.50e+3]".toList = ['['] ++ ['-', '1', '.', '5', '0', 'e', '+', '3', ']'] := String.toList_ofList
    have ht : ⟨.float "-1.50e+3", ⟨⟨0, 1, 1, 1⟩, ⟨0, 9, 9, 9⟩⟩⟩ ∈ tokens "[-1.50e+3]" := by
      rw [tokens_eq_lexChars htext]
      decide +kernel
    obtain ⟨after, -, hlongest, -⟩ := ((tokens_number ht htext rfl ⟨'-', rfl, .inl rfl⟩).1 _).1 (.inr rfl)
    exact ⟨_, ht, rfl, rfl, hlongest⟩
  · have htext : "[1.5e]".toList = ['['] ++ ['1', '.', '5', 'e', ']'] := String.toList_ofList
    have ht : ⟨.error (.number .noExponentDigit "1.5e"), ⟨⟨0, 1, 1, 1⟩, ⟨0, 5, 5, 5⟩⟩⟩ ∈ tokens "[1.5e]" := by
      rw [tokens_eq_lexChars htext]
      decide +kernel
    exact ⟨_, ht, rfl, (tokens_number ht htext rfl ⟨'1', rfl, .inr rfl⟩).2.2 (by simp)⟩

end GraphQL
