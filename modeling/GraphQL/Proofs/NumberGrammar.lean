import GraphQL.Token.Lexeme

/-!
# The grammar of number literals

A number literal is an integer, a fraction and an exponent, of which the last two may be empty (`Number.Parts`). The
scanner goes from part to part and never back: what it takes off the front of a text is a literal that nothing runs
into (`Number.isLiteral_of_scan`), and a literal is taken off as a whole wherever nothing runs
into it (`Number.scan_literal`).
-/

namespace GraphQL

theorem all_of_mem_takeWhile {p : Char → Bool} {text : List Char} {c : Char} (h : c ∈ text.takeWhile p) :
    p c = true :=
  List.all_eq_true.1 List.all_takeWhile c h

/-- A stretch that passes a test is taken whole where what follows fails it. -/
theorem span_append {p : Char → Bool} {y z : List Char} (hy : ∀ c ∈ y, p c = true)
    (hz : ∀ c ∈ z.head?, p c = false) :
    (y ++ z).takeWhile p = y ∧ (y ++ z).dropWhile p = z := by
  have hstop : z.takeWhile p = [] ∧ z.dropWhile p = z := by
    cases z with
    | nil => exact ⟨rfl, rfl⟩
    | cons c z => simp [hz c rfl]
  rw [List.takeWhile_append_of_pos hy, List.dropWhile_append_of_pos hy, hstop.1, hstop.2, List.append_nil]
  exact ⟨rfl, rfl⟩

private theorem head_append {P : Char → Prop} {y z : List Char} (hy : ∀ c ∈ y.head?, P c)
    (hz : ∀ c ∈ z.head?, P c) : ∀ c ∈ (y ++ z).head?, P c := by
  cases y with
  | nil => exact hz
  | cons c y => exact hy

namespace Number

/-- `[0-9]+` -/
structure IsDigits (text : List Char) : Prop where
  ne_nil : text ≠ []
  isDigit : ∀ c ∈ text, c.isDigit

/-- `0 | [1-9][0-9]*` -/
inductive IsWhole : List Char → Prop where
  | zero : IsWhole ['0']
  | digits {c : Char} {rest : List Char} (hc : c.isDigit) (hzero : c ≠ '0') (hrest : ∀ d ∈ rest, d.isDigit) :
    IsWhole (c :: rest)

/-- `-? (0 | [1-9][0-9]*)` -/
inductive IsInteger : List Char → Prop where
  | pos {whole : List Char} (h : IsWhole whole) : IsInteger whole
  | neg {whole : List Char} (h : IsWhole whole) : IsInteger ('-' :: whole)

/-- `(. [0-9]+)?` -/
inductive IsFraction : List Char → Prop where
  | nil : IsFraction []
  | digits {digits : List Char} (h : IsDigits digits) : IsFraction ('.' :: digits)

/-- `([eE] [+-]? [0-9]+)?` -/
inductive IsExponent : List Char → Prop where
  | nil : IsExponent []
  | digits {mark : Char} {digits : List Char} (hmark : mark = 'e' ∨ mark = 'E') (h : IsDigits digits) :
    IsExponent (mark :: digits)
  | signed {mark sign : Char} {digits : List Char} (hmark : mark = 'e' ∨ mark = 'E') (hsign : sign = '+' ∨ sign = '-')
    (h : IsDigits digits) : IsExponent (mark :: sign :: digits)

/-- A number literal and its three parts, of which the last two may be empty. -/
structure Parts (literal integer fraction exponent : List Char) : Prop where
  eq : literal = integer ++ fraction ++ exponent
  isInteger : IsInteger integer
  isFraction : IsFraction fraction
  isExponent : IsExponent exponent

def IsLiteral (text : List Char) : Prop := ∃ integer fraction exponent, Parts text integer fraction exponent

/-- A whole number consists of digits. -/
theorem IsWhole.isDigits {whole : List Char} (h : IsWhole whole) : IsDigits whole := by
  cases h with
  | zero => exact ⟨by simp, by simp⟩
  | digits hc _ hrest => exact ⟨by simp, List.forall_mem_cons.2 ⟨hc, hrest⟩⟩

private theorem IsFraction.dot {fraction : List Char} (h : IsFraction fraction) : ∀ c ∈ fraction.head?, c = '.' := by
  cases h with
  | nil => nofun
  | digits =>
    rintro c ⟨⟩
    rfl

private theorem IsExponent.mark {exponent : List Char} (h : IsExponent exponent) :
    ∀ c ∈ exponent.head?, c = 'e' ∨ c = 'E' := by
  cases h with
  | nil => nofun
  | digits hmark | signed hmark =>
    rintro c ⟨⟩
    exact hmark

theorem isTail_of_isDigit (c : Char) (h : c.isDigit) : isTail c := by
  simp [isTail, Char.isAlphanum, h]

/-- A faulty number takes all characters of literals with it. -/
theorem IsLiteral.isTail {literal : List Char} (h : IsLiteral literal) : ∀ c ∈ literal, isTail c = true := by
  obtain ⟨integer, fraction, exponent, rfl, hinteger, hfraction, hexponent⟩ := h
  have hdigits {digits : List Char} (h : IsDigits digits) : ∀ c ∈ digits, Number.isTail c = true :=
    fun c hc => isTail_of_isDigit c (h.isDigit c hc)
  refine List.forall_mem_append.2 ⟨List.forall_mem_append.2 ⟨?_, ?_⟩, ?_⟩
  · cases hinteger with
    | pos h => exact hdigits h.isDigits
    | neg h => exact List.forall_mem_cons.2 ⟨rfl, hdigits h.isDigits⟩
  · cases hfraction with
    | nil => exact List.forall_mem_nil _
    | digits h => exact List.forall_mem_cons.2 ⟨rfl, hdigits h⟩
  · cases hexponent with
    | nil => exact List.forall_mem_nil _
    | digits hmark h => exact List.forall_mem_cons.2 ⟨by rcases hmark with rfl | rfl <;> rfl, hdigits h⟩
    | signed hmark hsign h =>
      exact List.forall_mem_cons.2 ⟨by rcases hmark with rfl | rfl <;> rfl,
        List.forall_mem_cons.2 ⟨by rcases hsign with rfl | rfl <;> rfl, hdigits h⟩⟩

/-- A character that comes next is taken. -/
private theorem takeIf_taken_of_nextIs {p : Char → Bool} {s : Scan} (h : s.nextIs p) :
    ∃ c, p c ∧ (s.takeIf p).taken = s.taken ++ [c] := by
  obtain ⟨taken, _ | ⟨c, rest⟩⟩ := s
  · cases h
  · have hc : p c := by simpa [Scan.nextIs] using h
    exact ⟨c, hc, by simp [Scan.takeIf, hc]⟩

private theorem takeIf_eq_self {p : Char → Bool} {s : Scan} (h : s.nextIs p = false) : s.takeIf p = s := by
  obtain ⟨taken, _ | ⟨c, rest⟩⟩ := s
  · rfl
  · have hc : p c = false := by simpa [Scan.nextIs] using h
    simp [Scan.takeIf, hc]

private theorem nextIs_eq_false {p : Char → Bool} {taken text : List Char} (h : ∀ c ∈ text.head?, p c = false) :
    Scan.nextIs p ⟨taken, text⟩ = false := by
  cases text with
  | nil => rfl
  | cons c text => exact h c rfl

/-- A text that does not start with a digit. -/
def NoDigit (text : List Char) : Prop := ∀ c ∈ text.head?, c.isDigit = false

private theorem noDigit_dropWhile (text : List Char) : NoDigit (text.dropWhile Char.isDigit) := by
  intro c hc
  have := List.head?_dropWhile_not Char.isDigit text
  simpa [Option.mem_def.1 hc] using this

private theorem noDigit_of_nextIs {s : Scan} (h : s.nextIs Char.isDigit = false) : NoDigit s.rest := by
  intro c hc
  simpa [Scan.nextIs, Option.mem_def.1 hc] using h

/-- Digits that have to come next, or the fault that none do. -/
def someDigits (fault : Option NumberFault) (s : Scan) : Except NumberStop Scan :=
  if s.nextIs Char.isDigit then .ok (s.takeWhile Char.isDigit) else .error ⟨fault, s⟩

/-- Digits are taken up to something else. -/
private theorem exists_of_someDigits {fault : Option NumberFault} {s s' : Scan} (h : someDigits fault s = .ok s') :
    ∃ digits, IsDigits digits ∧ s.rest = digits ++ s'.rest ∧ s'.taken = s.taken ++ digits ∧ NoDigit s'.rest := by
  unfold someDigits at h
  split at h
  · next hdigit =>
    cases h
    refine ⟨s.rest.takeWhile Char.isDigit, ⟨?_, fun c hc => all_of_mem_takeWhile hc⟩,
      List.takeWhile_append_dropWhile.symm, rfl, noDigit_dropWhile _⟩
    obtain ⟨taken, _ | ⟨c, rest⟩⟩ := s
    · cases hdigit
    · have hc : c.isDigit = true := hdigit
      simp [hc]
  · cases h

/-- Digits are taken as a whole where no digit follows them. -/
theorem someDigits_digits {digits : List Char} (h : IsDigits digits) {z : List Char} (hz : NoDigit z)
    (fault : Option NumberFault) (taken : List Char) :
    someDigits fault ⟨taken, digits ++ z⟩ = .ok ⟨taken ++ digits, z⟩ := by
  have hnext : Scan.nextIs Char.isDigit ⟨taken, digits ++ z⟩ = true := by
    obtain ⟨c, rest, rfl⟩ := List.exists_cons_of_ne_nil h.ne_nil
    exact h.isDigit c (List.mem_cons_self ..)
  have hspan := span_append h.isDigit hz
  rw [someDigits, if_pos hnext, Scan.takeWhile, hspan.1, hspan.2]

/-! ### What is scanned is a literal -/

variable {s s' : Scan}

/-- What is taken in front of the fraction is a whole number, and no digit follows. -/
private theorem exists_of_unsignedPart (h : unsignedPart s = .ok s') :
    ∃ whole, IsWhole whole ∧ s'.taken = s.taken ++ whole ∧ NoDigit s'.rest := by
  unfold unsignedPart at h
  split at h
  · next hzero =>
    obtain ⟨c, hc, htaken⟩ := takeIf_taken_of_nextIs hzero
    obtain rfl : c = '0' := of_decide_eq_true hc
    simp only at h
    split at h
    · cases h
    · next hdigit =>
      cases h
      exact ⟨['0'], .zero, htaken, noDigit_of_nextIs (by simpa using hdigit)⟩
  · next hzero =>
    have h : someDigits none s = .ok s' := h
    obtain ⟨digits, hdigits, hrest, htaken, hstop⟩ := exists_of_someDigits h
    refine ⟨digits, ?_, htaken, hstop⟩
    obtain ⟨c, digits, rfl⟩ := List.exists_cons_of_ne_nil hdigits.ne_nil
    obtain ⟨hc, hdigits⟩ := List.forall_mem_cons.1 hdigits.isDigit
    exact .digits hc (by simpa [Scan.nextIs, hrest] using hzero) hdigits

private theorem exists_of_integerPart (h : integerPart s = .ok s') :
    ∃ integer, IsInteger integer ∧ s'.taken = s.taken ++ integer ∧ NoDigit s'.rest := by
  obtain ⟨whole, hwhole, htaken, hstop⟩ := exists_of_unsignedPart h
  cases hminus : s.nextIs (· = '-') with
  | false =>
    rw [takeIf_eq_self hminus] at htaken
    exact ⟨whole, .pos hwhole, htaken, hstop⟩
  | true =>
    obtain ⟨c, hc, htaken'⟩ := takeIf_taken_of_nextIs hminus
    obtain rfl : c = '-' := of_decide_eq_true hc
    rw [htaken', List.append_assoc] at htaken
    exact ⟨'-' :: whole, .neg hwhole, htaken, hstop⟩

/-- What is taken of a fraction is one, or nothing where there is no dot. -/
private theorem exists_of_fractionPart (hs : NoDigit s.rest) (h : fractionPart s = .ok s') :
    ∃ fraction, IsFraction fraction ∧ s'.taken = s.taken ++ fraction ∧ NoDigit s'.rest := by
  unfold fractionPart at h
  split at h
  · next hdot =>
    obtain ⟨c, hc, htaken⟩ := takeIf_taken_of_nextIs hdot
    obtain rfl : c = '.' := of_decide_eq_true hc
    have h : someDigits (some .noFractionDigit) (s.takeIf (· = '.')) = .ok s' := h
    obtain ⟨digits, hdigits, -, htaken', hstop⟩ := exists_of_someDigits h
    rw [htaken, List.append_assoc] at htaken'
    exact ⟨'.' :: digits, .digits hdigits, htaken', hstop⟩
  · cases h
    exact ⟨[], .nil, by simp, hs⟩

private theorem exists_of_exponentPart (hs : NoDigit s.rest) (h : exponentPart s = .ok s') :
    ∃ exponent, IsExponent exponent ∧ s'.taken = s.taken ++ exponent ∧ NoDigit s'.rest := by
  unfold exponentPart at h
  split at h
  · next hmark =>
    obtain ⟨c, hc, htaken⟩ := takeIf_taken_of_nextIs hmark
    have hc : c = 'e' ∨ c = 'E' := by simpa using hc
    have h : someDigits (some .noExponentDigit)
        ((s.takeIf fun c => c = 'e' || c = 'E').takeIf fun c => c = '+' || c = '-') = .ok s' := h
    obtain ⟨digits, hdigits, -, htaken', hstop⟩ := exists_of_someDigits h
    cases hsign : (s.takeIf fun c => c = 'e' || c = 'E').nextIs fun c => c = '+' || c = '-' with
    | false =>
      rw [takeIf_eq_self hsign, htaken, List.append_assoc] at htaken'
      exact ⟨c :: digits, .digits hc hdigits, htaken', hstop⟩
    | true =>
      obtain ⟨d, hd, htaken''⟩ := takeIf_taken_of_nextIs hsign
      rw [htaken'', htaken, List.append_assoc, List.append_assoc] at htaken'
      exact ⟨c :: d :: digits, .signed hc (by simpa using hd) hdigits, htaken', hstop⟩
  · cases h
    exact ⟨[], .nil, by simp, hs⟩

/-- A number is scanned part by part, and the character after it is looked at last. -/
theorem exists_of_scan {text : List Char} (h : scan text = .ok s) : ∃ s₁ s₂,
    integerPart ⟨[], text⟩ = .ok s₁ ∧ fractionPart s₁ = .ok s₂ ∧ exponentPart s₂ = .ok s ∧ boundary s = .ok s := by
  simp only [scan, bind, Except.bind] at h
  cases hint : integerPart ⟨[], text⟩ with
  | error e => simp [hint] at h
  | ok s₁ =>
    cases hfraction : fractionPart s₁ with
    | error e => simp [hint, hfraction] at h
    | ok s₂ =>
      cases hexponent : exponentPart s₂ with
      | error e => simp [hint, hfraction, hexponent] at h
      | ok s₃ =>
        simp only [hint, hfraction, hexponent] at h
        obtain rfl : s₃ = s := by
          unfold boundary at h
          split at h
          · cases h
          · exact Except.ok.inj h
        exact ⟨s₁, s₂, rfl, hfraction, hexponent, h⟩

/-- A text that does not run into the number before it. -/
def Stops (text : List Char) : Prop := ∀ c ∈ text.head?, isNameContinue c = false ∧ c ≠ '.'

/-- A number may be followed by anything but a digit, a dot, a letter and an underscore. -/
theorem stops_iff {text : List Char} :
    Stops text ↔ ∀ c ∈ text.head?, c.isDigit = false ∧ c ≠ '.' ∧ c.isAlpha = false ∧ c ≠ '_' := by
  refine forall₂_congr fun c _ => ?_
  simp only [isNameContinue, Char.isAlphanum, Bool.or_eq_false_iff, decide_eq_false_iff_not]
  constructor
  · rintro ⟨⟨hunderscore, halpha, hdigit⟩, hdot⟩
    exact ⟨hdigit, hdot, halpha, hunderscore⟩
  · rintro ⟨hdigit, hdot, halpha, hunderscore⟩
    exact ⟨⟨hunderscore, halpha, hdigit⟩, hdot⟩

/-- What is scanned as a number is a literal that nothing runs into. -/
theorem isLiteral_of_scan {text : List Char} (h : scan text = .ok s) : IsLiteral s.taken ∧ Stops s.rest := by
  obtain ⟨s₁, s₂, hint, hfraction, hexponent, hboundary⟩ := exists_of_scan h
  obtain ⟨integer, hinteger, htaken₁, hstop₁⟩ := exists_of_integerPart hint
  obtain ⟨fraction, hfraction, htaken₂, hstop₂⟩ := exists_of_fractionPart hstop₁ hfraction
  obtain ⟨exponent, hexponent, htaken₃, hstop₃⟩ := exists_of_exponentPart hstop₂ hexponent
  refine ⟨⟨integer, fraction, exponent, by rw [htaken₃, htaken₂, htaken₁]; rfl, hinteger, hfraction, hexponent⟩,
    stops_iff.2 fun c hc => ⟨hstop₃ c hc, ?_⟩⟩
  unfold boundary at hboundary
  split at hboundary
  · cases hboundary
  · next hnot => simpa [Scan.nextIs, Option.mem_def.1 hc, isNameStart, and_comm] using hnot

variable {z : List Char}

/-- A whole number is taken as a whole. -/
private theorem unsignedPart_whole {whole : List Char} (h : IsWhole whole) (hz : NoDigit z) (taken : List Char) :
    unsignedPart ⟨taken, whole ++ z⟩ = .ok ⟨taken ++ whole, z⟩ := by
  cases h with
  | zero =>
    -- a zero is taken alone, and `z` may not go on with a digit
    have hzero : unsignedPart ⟨taken, '0' :: z⟩ =
        if Scan.nextIs Char.isDigit ⟨taken ++ ['0'], z⟩ then .error ⟨some .leadingZero, ⟨taken ++ ['0'], z⟩⟩
        else .ok ⟨taken ++ ['0'], z⟩ := rfl
    rw [List.singleton_append, hzero, nextIs_eq_false hz]
    rfl
  | @digits c rest hc hzero hrest =>
    have hfirst : Scan.nextIs (· = '0') ⟨taken, c :: rest ++ z⟩ = false := decide_eq_false hzero
    rw [unsignedPart, hfirst]
    exact someDigits_digits ⟨by simp, List.forall_mem_cons.2 ⟨hc, hrest⟩⟩ hz none taken

private theorem integerPart_integer {integer : List Char} (h : IsInteger integer) (hz : NoDigit z) (taken : List Char) :
    integerPart ⟨taken, integer ++ z⟩ = .ok ⟨taken ++ integer, z⟩ := by
  cases h with
  | @neg whole h =>
    have hminus : Scan.takeIf (· = '-') ⟨taken, '-' :: whole ++ z⟩ = ⟨taken ++ ['-'], whole ++ z⟩ := rfl
    rw [integerPart, hminus, unsignedPart_whole h hz, List.append_assoc, List.singleton_append]
  | pos h =>
    have hminus : Scan.nextIs (· = '-') ⟨taken, integer ++ z⟩ = false := by
      cases h with
      | zero => rfl
      | digits hc =>
        refine decide_eq_false ?_
        rintro rfl
        cases hc
    rw [integerPart, takeIf_eq_self hminus, unsignedPart_whole h hz]

/-- A fraction is taken as a whole. -/
private theorem fractionPart_fraction {fraction : List Char} (h : IsFraction fraction)
    (hz : ∀ c ∈ z.head?, c.isDigit = false ∧ c ≠ '.') (taken : List Char) :
    fractionPart ⟨taken, fraction ++ z⟩ = .ok ⟨taken ++ fraction, z⟩ := by
  cases h with
  | nil =>
    rw [List.nil_append, List.append_nil, fractionPart, nextIs_eq_false fun c hc => decide_eq_false (hz c hc).2]
    rfl
  | @digits digits h =>
    have hdot : fractionPart ⟨taken, '.' :: digits ++ z⟩ =
        someDigits (some .noFractionDigit) ⟨taken ++ ['.'], digits ++ z⟩ := rfl
    rw [hdot, someDigits_digits h fun c hc => (hz c hc).1, List.append_assoc, List.singleton_append]

private theorem exponentPart_exponent {exponent : List Char} (h : IsExponent exponent)
    (hz : ∀ c ∈ z.head?, c.isDigit = false ∧ c ≠ 'e' ∧ c ≠ 'E') (taken : List Char) :
    exponentPart ⟨taken, exponent ++ z⟩ = .ok ⟨taken ++ exponent, z⟩ := by
  have hmarked {mark : Char} (hmark : mark = 'e' ∨ mark = 'E') (text : List Char) :
      exponentPart ⟨taken, mark :: text⟩ =
        someDigits (some .noExponentDigit) (Scan.takeIf (fun c => c = '+' || c = '-') ⟨taken ++ [mark], text⟩) := by
    rcases hmark with rfl | rfl <;> rfl
  have hdigit : NoDigit z := fun c hc => (hz c hc).1
  cases h with
  | nil =>
    have hmark : Scan.nextIs (fun c => c = 'e' || c = 'E') ⟨taken, z⟩ = false :=
      nextIs_eq_false fun c hc => by simp [hz c hc]
    rw [List.nil_append, List.append_nil, exponentPart, hmark]
    rfl
  | @digits mark digits hmark h =>
    have hsign : Scan.nextIs (fun c => c = '+' || c = '-') ⟨taken ++ [mark], digits ++ z⟩ = false := by
      obtain ⟨c, rest, rfl⟩ := List.exists_cons_of_ne_nil h.ne_nil
      have hc := h.isDigit c (by simp)
      rw [← Bool.not_eq_true]
      intro hsign
      rcases (by simpa [Scan.nextIs] using hsign : c = '+' ∨ c = '-') with rfl | rfl <;> cases hc
    rw [List.cons_append, hmarked hmark, takeIf_eq_self hsign, someDigits_digits h hdigit, List.append_assoc,
      List.singleton_append]
  | @signed mark sign digits hmark hsign h =>
    have hsigned : Scan.takeIf (fun c => c = '+' || c = '-') ⟨taken ++ [mark], sign :: digits ++ z⟩ =
        ⟨taken ++ [mark] ++ [sign], digits ++ z⟩ := by
      rcases hsign with rfl | rfl <;> rfl
    rw [List.cons_append, hmarked hmark, hsigned, someDigits_digits h hdigit]
    simp

/-- A literal is scanned as a whole where what follows does not run into it. -/
theorem scan_literal {literal rest : List Char} (h : IsLiteral literal) (hrest : Stops rest) :
    scan (literal ++ rest) = .ok ⟨literal, rest⟩ := by
  obtain ⟨integer, fraction, exponent, rfl, hinteger, hfraction, hexponent⟩ := h
  have hstop {c : Char} (hc : c ∈ rest.head?) :
      c.isDigit = false ∧ c ≠ '.' ∧ c ≠ 'e' ∧ c ≠ 'E' ∧ isNameStart c = false := by
    obtain ⟨hdigit, hdot, halpha, hunderscore⟩ := stops_iff.1 hrest c hc
    refine ⟨hdigit, hdot, ?_, ?_, by simp [isNameStart, halpha, hunderscore]⟩ <;>
      (rintro rfl; cases halpha)
  -- each part begins with a character that stops the parts before it
  have hstop₃ : ∀ c ∈ (exponent ++ rest).head?, c.isDigit = false ∧ c ≠ '.' :=
    head_append (fun c hc => by obtain rfl | rfl := hexponent.mark c hc <;> decide)
      fun c hc => ⟨(hstop hc).1, (hstop hc).2.1⟩
  have hstop₂ : NoDigit (fraction ++ (exponent ++ rest)) :=
    head_append (fun c hc => by rw [hfraction.dot c hc]; decide) fun c hc => (hstop₃ c hc).1
  have hscan₁ := integerPart_integer hinteger hstop₂ []
  have hscan₂ := fractionPart_fraction hfraction hstop₃ integer
  have hscan₃ := exponentPart_exponent hexponent
    (fun c hc => ⟨(hstop hc).1, (hstop hc).2.2.1, (hstop hc).2.2.2.1⟩) (integer ++ fraction)
  have hboundary : boundary ⟨integer ++ fraction ++ exponent, rest⟩ = .ok ⟨integer ++ fraction ++ exponent, rest⟩ := by
    rw [boundary, nextIs_eq_false fun c hc => by simp [hstop hc]]
    rfl
  rw [List.append_assoc, List.append_assoc]
  simp only [scan, bind, Except.bind, hscan₁, List.nil_append, hscan₂, hscan₃, hboundary]

/-- What is scanned as a number is scanned again where what follows does not run into it. -/
theorem scan_append {text : List Char} (h : scan text = .ok s) (hz : Stops z) :
    scan (s.taken ++ z) = .ok ⟨s.taken, z⟩ :=
  scan_literal (isLiteral_of_scan h).1 hz

end Number

end GraphQL
