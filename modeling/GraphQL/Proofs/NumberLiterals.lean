import GraphQL.Proofs.Lexemes
import GraphQL.Syntax.Number
import Mathlib.Algebra.Order.Field.Power
import Mathlib.Data.Nat.Digits.Defs
import Mathlib.Data.Rat.Cast.Order
import Mathlib.Tactic.FieldSimp
import Mathlib.Tactic.Linarith
import Mathlib.Tactic.NormNum

/-!
# The range of number literals

A text of digits writes a number in base ten (`WritesNat`); integers have a sign before (`WritesInt`), decimals a
fraction and a power of ten after them (`WritesDecimal`). An integer literal is accepted if it writes a number of 32
bits (`isSome_int32OfLiteral?_iff`), a float literal if the decimal that it writes has a finite double next to it
(`isSome_finiteOfLiteral?_iff`), however many digits and however large a power the literals have. The numbers of a
document always write such numbers (`Token.Kind.Genuine.writes_number`).
-/

namespace GraphQL

namespace Number

/-- The digits write the number in base ten, the most significant one first. -/
structure WritesNat (digits : List Char) (n : Nat) : Prop where
  ne_nil : digits ≠ []
  isDigit : ∀ c ∈ digits, c.isDigit
  value : n = Nat.ofDigits 10 (digits.reverse.map fun c => c.toNat - '0'.toNat)

private theorem natOfDigits_eq_ofDigits (digits : List Char) :
    natOfDigits digits = Nat.ofDigits 10 (digits.reverse.map fun c => c.toNat - '0'.toNat) := by
  rw [natOfDigits, List.foldl_eq_foldr_reverse, Nat.ofDigits_eq_foldr, List.foldr_map]
  simp only [Nat.cast_id, Nat.add_comm]

/-- Digits in front of others count for as many powers of ten more. -/
private theorem natOfDigits_append (xs ys : List Char) :
    natOfDigits (xs ++ ys) = natOfDigits xs * 10 ^ ys.length + natOfDigits ys := by
  simp only [natOfDigits_eq_ofDigits, List.reverse_append, List.map_append, Nat.ofDigits_append, List.length_map,
    List.length_reverse]
  ring

/-- Digits write the number that is read from them, and no other. -/
private theorem writesNat_iff {digits : List Char} {n : Nat} :
    WritesNat digits n ↔ areDigits digits ∧ natOfDigits digits = n := by
  have hdigits : areDigits digits ↔ digits ≠ [] ∧ ∀ c ∈ digits, c.isDigit := by simp [areDigits]
  rw [hdigits, natOfDigits_eq_ofDigits]
  exact ⟨fun h => ⟨⟨h.ne_nil, h.isDigit⟩, h.value.symm⟩, fun h => ⟨h.1.1, h.1.2, h.2.symm⟩⟩

private theorem writesNat_natOfDigits {digits : List Char} (h : areDigits digits) :
    WritesNat digits (natOfDigits digits) :=
  writesNat_iff.2 ⟨h, rfl⟩

/-- The text writes the integer: digits, with a minus before them if it is negative. -/
inductive WritesInt : List Char → Int → Prop where
  | pos {digits : List Char} {n : Nat} (h : WritesNat digits n) : WritesInt digits n
  | neg {digits : List Char} {n : Nat} (h : WritesNat digits n) : WritesInt ('-' :: digits) (-n)

private theorem splitSign_cases (text : List Char) :
    (∃ rest, text = '-' :: rest ∧ splitSign text = (true, rest)) ∨ splitSign text = (false, text) := by
  unfold splitSign
  split
  · exact .inl ⟨_, rfl, rfl⟩
  · exact .inr rfl

/-- Digits have no sign to split off. -/
theorem splitSign_of_isDigit {text : List Char} (h : ∀ c, text.head? = some c → c.isDigit) :
    splitSign text = (false, text) := by
  rcases splitSign_cases text with ⟨rest, rfl, -⟩ | heq
  · exact absurd (h '-' rfl) (by decide)
  · exact heq

private theorem WritesNat.splitSign {digits : List Char} {n : Nat} (h : WritesNat digits n) :
    Number.splitSign digits = (false, digits) :=
  splitSign_of_isDigit fun c hc => h.isDigit c (List.mem_of_head? hc)

/-- A text is read as an integer if and only if it writes it. -/
theorem intOf?_eq_some_iff {text : List Char} {i : Int} : intOf? text = some i ↔ WritesInt text i := by
  constructor
  · intro h
    unfold intOf? at h
    rcases splitSign_cases text with ⟨rest, rfl, hsplit⟩ | hsplit
    · simp only [hsplit, ↓reduceIte, Option.ite_none_right_eq_some, Option.some.injEq] at h
      exact h.2 ▸ .neg (writesNat_natOfDigits h.1)
    · simp only [hsplit, Bool.false_eq_true, ↓reduceIte, Option.ite_none_right_eq_some, Option.some.injEq] at h
      exact h.2 ▸ .pos (writesNat_natOfDigits h.1)
  · intro h
    cases h with
    | pos h => simp [intOf?, h.splitSign, writesNat_iff.1 h]
    | neg h => simp [intOf?, Number.splitSign, writesNat_iff.1 h]

/-- The integers of 32 bits. -/
def IsInt32 (i : Int) : Prop := -2 ^ 31 ≤ i ∧ i ≤ 2 ^ 31 - 1

/-- A literal is read as an integer of 32 bits if and only if it writes it and 32 bits hold it. -/
theorem int32OfLiteral?_eq_some_iff {raw : String} {i : Int} :
    int32OfLiteral? raw = some i ↔ WritesInt raw.toList i ∧ IsInt32 i := by
  rw [int32OfLiteral?, intOfLiteral?, Option.filter_eq_some_iff, intOf?_eq_some_iff]
  simp only [Bool.and_eq_true, decide_eq_true_eq, IsInt32]
  norm_num

theorem isSome_int32OfLiteral?_iff {raw : String} :
    (int32OfLiteral? raw).isSome ↔ ∃ i, WritesInt raw.toList i ∧ IsInt32 i := by
  rw [int32OfLiteral?, intOfLiteral?, Option.isSome_filter, Option.any_eq_true]
  simp only [intOf?_eq_some_iff, Bool.and_eq_true, decide_eq_true_eq, IsInt32]
  norm_num

example : int32OfLiteral? "-2147483648" = some (-2147483648) ∧ int32OfLiteral? "2147483648" = none := by
  decide +kernel

/-- The text writes the fraction: a dot and digits, or nothing. -/
inductive WritesFraction : List Char → ℚ → Prop where
  | nil : WritesFraction [] 0
  | digits {digits : List Char} {n : Nat} (h : WritesNat digits n) :
    WritesFraction ('.' :: digits) (n / 10 ^ digits.length)

/-- The text writes the power of ten: its mark and an integer, where a plus may stand too, or nothing. -/
inductive WritesPower : List Char → Int → Prop where
  | nil : WritesPower [] 0
  | int {mark : Char} {text : List Char} {i : Int} (hmark : mark = 'e' ∨ mark = 'E') (h : WritesInt text i) :
    WritesPower (mark :: text) i
  | plus {mark : Char} {digits : List Char} {n : Nat} (hmark : mark = 'e' ∨ mark = 'E') (h : WritesNat digits n) :
    WritesPower (mark :: '+' :: digits) n

/-- The text writes the decimal: digits, a fraction and a power of ten. -/
inductive WritesMagnitude : List Char → ℚ → Prop where
  | mk {whole fraction power : List Char} {n : Nat} {q : ℚ} {i : Int} (hwhole : WritesNat whole n)
    (hfraction : WritesFraction fraction q) (hpower : WritesPower power i) :
    WritesMagnitude (whole ++ fraction ++ power) ((n + q) * 10 ^ i)

/-- The text writes the decimal, with a minus before it if it is negative. -/
inductive WritesDecimal : List Char → ℚ → Prop where
  | pos {text : List Char} {q : ℚ} (h : WritesMagnitude text q) : WritesDecimal text q
  | neg {text : List Char} {q : ℚ} (h : WritesMagnitude text q) : WritesDecimal ('-' :: text) (-q)

private theorem fractionOf?_eq_some {text digits : List Char} (h : fractionOf? text = some digits) :
    WritesFraction text (natOfDigits digits / 10 ^ digits.length) := by
  unfold fractionOf? at h
  split at h
  · cases h
    simpa [natOfDigits] using WritesFraction.nil
  · simp only [Option.ite_none_right_eq_some, Option.some.injEq] at h
    exact h.2 ▸ .digits (writesNat_natOfDigits h.1)
  · cases h

private theorem WritesFraction.exists_digits {text : List Char} {q : ℚ} (h : WritesFraction text q) :
    ∃ digits, fractionOf? text = some digits ∧ q = natOfDigits digits / 10 ^ digits.length := by
  cases h with
  | nil => exact ⟨[], rfl, by simp [natOfDigits]⟩
  | digits h =>
    obtain ⟨hdigits, rfl⟩ := writesNat_iff.1 h
    exact ⟨_, by simp [fractionOf?, hdigits], rfl⟩

private theorem isMark_iff {c : Char} : isMark c ↔ c = 'e' ∨ c = 'E' := by simp [isMark]

private theorem powerOf?_eq_some {text : List Char} {i : Int} (hmark : ∀ c, text.head? = some c → isMark c)
    (h : powerOf? text = some i) : WritesPower text i := by
  unfold powerOf? at h
  split at h
  · cases h
    exact .nil
  · simp only [Option.ite_none_right_eq_some, Option.some.injEq] at h
    exact h.2 ▸ .plus (isMark_iff.1 (hmark _ rfl)) (writesNat_natOfDigits h.1)
  · exact .int (isMark_iff.1 (hmark _ rfl)) (intOf?_eq_some_iff.1 h)

private theorem WritesInt.ne_plus {text : List Char} {i : Int} (h : WritesInt ('+' :: text) i) : False := by
  cases h with
  | pos h => exact absurd (h.isDigit '+' (List.mem_cons_self ..)) (by decide)

/-- A power of ten that is written is read. -/
private theorem WritesPower.powerOf?_eq {text : List Char} {i : Int} (h : WritesPower text i) :
    powerOf? text = some i := by
  cases h with
  | nil => rfl
  | plus hmark h => simp [powerOf?, writesNat_iff.1 h]
  | int hmark h =>
    unfold powerOf?
    split
    · contradiction
    · next heq =>
      cases heq
      exact h.ne_plus.elim
    · next heq =>
      cases heq
      exact intOf?_eq_some_iff.2 h

/-- Digits after the dot count as digits before it, with a smaller power of ten. -/
theorem natOfDigits_append_mul_zpow (whole fraction : List Char) (i : Int) :
    ((natOfDigits whole : ℚ) + natOfDigits fraction / 10 ^ fraction.length) * 10 ^ i =
      natOfDigits (whole ++ fraction) * 10 ^ (i - fraction.length) := by
  rw [natOfDigits_append, zpow_sub₀ (by norm_num), zpow_natCast]
  push_cast
  field_simp

/-- A magnitude that is read is written. -/
private theorem magnitudeOf?_eq_some {text : List Char} {m : Nat} {i : Int} (h : magnitudeOf? text = some (m, i)) :
    WritesMagnitude text (m * 10 ^ i) := by
  simp only [magnitudeOf?, bind, Option.bind_eq_some_iff, Option.ite_none_right_eq_some, Option.some.injEq,
    Prod.mk.injEq] at h
  obtain ⟨fraction, hfraction, power, hpower, hwhole, rfl, rfl⟩ := h
  -- the power of ten begins where the fraction ends, at the first mark
  have hmark := List.head?_dropWhile_not (fun c => !isMark c) (text.dropWhile Char.isDigit)
  have htext : text.takeWhile Char.isDigit ++ (text.dropWhile Char.isDigit).takeWhile (!isMark ·) ++
      (text.dropWhile Char.isDigit).dropWhile (!isMark ·) = text := by
    rw [List.append_assoc, List.takeWhile_append_dropWhile, List.takeWhile_append_dropWhile]
  have hpower := powerOf?_eq_some (fun c hc => by simpa [hc] using hmark) hpower
  have hwrites := WritesMagnitude.mk (writesNat_natOfDigits hwhole) (fractionOf?_eq_some hfraction) hpower
  rwa [htext, natOfDigits_append_mul_zpow] at hwrites

private theorem WritesPower.isMark_head? {text : List Char} {i : Int} (h : WritesPower text i) {c : Char}
    (hc : text.head? = some c) : isMark c := by
  cases h with
  | nil => cases hc
  | int hmark | plus hmark => exact isMark_iff.2 (Option.some.inj hc ▸ hmark)

private theorem isMark_eq_false_of_isDigit {c : Char} (h : c.isDigit) : isMark c = false := by
  rw [← Bool.not_eq_true, isMark_iff]
  rintro (rfl | rfl) <;> exact absurd h (by decide)

private theorem WritesFraction.not_isMark {text : List Char} {q : ℚ} (h : WritesFraction text q) {c : Char}
    (hc : c ∈ text) : isMark c = false := by
  cases h with
  | nil => cases hc
  | digits h =>
    rcases List.mem_cons.1 hc with rfl | hc
    · decide
    · exact isMark_eq_false_of_isDigit (h.isDigit c hc)

/-- Neither a fraction nor a power of ten starts with a digit. -/
theorem WritesFraction.not_isDigit_head? {text power : List Char} {q : ℚ} {i : Int} (h : WritesFraction text q)
    (hpower : WritesPower power i) {c : Char} (hc : (text ++ power).head? = some c) : c.isDigit = false := by
  cases h with
  | nil =>
    have hmark := hpower.isMark_head? hc
    rw [← Bool.not_eq_true]
    intro hdigit
    simp [isMark_eq_false_of_isDigit hdigit] at hmark
  | digits h =>
    obtain rfl := Option.some.inj hc
    decide

private theorem WritesMagnitude.splitSign {text : List Char} {q : ℚ} (h : WritesMagnitude text q) :
    Number.splitSign text = (false, text) := by
  cases h with
  | @mk whole fraction power n q i hwhole =>
    refine splitSign_of_isDigit fun c hc => ?_
    rw [List.append_assoc, List.head?_append_of_ne_nil _ hwhole.ne_nil] at hc
    exact hwhole.isDigit c (List.mem_of_head? hc)

/-- A magnitude that is written is read. -/
private theorem WritesMagnitude.exists_magnitude {text : List Char} {q : ℚ} (h : WritesMagnitude text q) :
    ∃ m i, magnitudeOf? text = some (m, i) ∧ q = m * 10 ^ i := by
  cases h with
  | @mk whole fraction power n q i hwhole hfraction hpower =>
    obtain ⟨hdigits, rfl⟩ := writesNat_iff.1 hwhole
    obtain ⟨digits, hfractionOf, rfl⟩ := hfraction.exists_digits
    obtain ⟨htake, hdrop⟩ := span_append hwhole.isDigit fun c hc =>
      hfraction.not_isDigit_head? hpower hc
    obtain ⟨htake', hdrop'⟩ := span_append (p := (!isMark ·))
      (fun c hc => by simp [hfraction.not_isMark hc]) fun c hc => by simp [hpower.isMark_head? hc]
    refine ⟨_, _, ?_, natOfDigits_append_mul_zpow ..⟩
    rw [magnitudeOf?, List.append_assoc, htake, hdrop, htake', hdrop', hfractionOf, hpower.powerOf?_eq]
    simp [hdigits]

/-- The number that a decimal stands for. -/
def Decimal.value (d : Decimal) : ℚ := (if d.negative then -1 else 1) * (d.mantissa * 10 ^ d.exponent)

theorem Decimal.abs_value (d : Decimal) : |d.value| = d.mantissa * 10 ^ d.exponent := by
  have hnonneg : (0 : ℚ) ≤ d.mantissa * 10 ^ d.exponent := by positivity
  rw [value, abs_mul, abs_of_nonneg hnonneg]
  split <;> simp

/-- A literal that is read as a decimal writes its magnitude, after a minus if it is negative. -/
theorem writesMagnitude_of_decimalOfLiteral? {raw : String} {d : Decimal} (h : decimalOfLiteral? raw = some d) :
    ∃ text, raw.toList = (if d.negative then '-' :: text else text) ∧ WritesMagnitude text |d.value| := by
  rcases splitSign_cases raw.toList with ⟨text, htext, hsplit⟩ | hsplit <;>
    simp only [decimalOfLiteral?, hsplit, Option.map_eq_some_iff] at h <;>
    obtain ⟨⟨m, i⟩, hm, rfl⟩ := h
  · exact ⟨text, by simpa using htext, Decimal.abs_value _ ▸ magnitudeOf?_eq_some hm⟩
  · exact ⟨raw.toList, by simp, Decimal.abs_value _ ▸ magnitudeOf?_eq_some hm⟩

theorem WritesMagnitude.exists_decimal {text : List Char} {q : ℚ} (h : WritesMagnitude text q) {raw : String}
    (negative : Bool) (hraw : raw.toList = if negative then '-' :: text else text) :
    ∃ d, decimalOfLiteral? raw = some d ∧ d.negative = negative ∧ |d.value| = q := by
  obtain ⟨m, i, hm, rfl⟩ := h.exists_magnitude
  refine ⟨⟨negative, m, i⟩, ?_, rfl, Decimal.abs_value _⟩
  cases negative with
  | false => simp [decimalOfLiteral?, hraw, h.splitSign, hm]
  | true => simp [decimalOfLiteral?, hraw, Number.splitSign, hm]

/-- A literal is read as the decimal that it writes. -/
theorem exists_decimalOfLiteral?_iff {raw : String} {q : ℚ} :
    (∃ d, decimalOfLiteral? raw = some d ∧ d.value = q) ↔ WritesDecimal raw.toList q := by
  have hvalue (d : Decimal) : d.value = if d.negative then -|d.value| else |d.value| := by
    rw [Decimal.abs_value, Decimal.value]
    split <;> simp
  constructor
  · rintro ⟨d, hd, rfl⟩
    obtain ⟨text, htext, hwrites⟩ := writesMagnitude_of_decimalOfLiteral? hd
    rw [htext, hvalue]
    split
    · exact .neg hwrites
    · exact .pos hwrites
  · intro h
    generalize htext : raw.toList = text at h
    cases h with
    | pos h =>
      obtain ⟨d, hd, hsign, rfl⟩ := h.exists_decimal false htext
      exact ⟨d, hd, by simpa [hsign] using hvalue d⟩
    | neg h =>
      obtain ⟨d, hd, hsign, rfl⟩ := h.exists_decimal true htext
      exact ⟨d, hd, by simpa [hsign] using hvalue d⟩

/-! ### Finite doubles -/

/-- The decimal lies nearer to the greatest finite double than to the power of two that would come next; half way it
is rounded to infinity. -/
def IsNearFinite (q : ℚ) : Prop := |q| - (2 ^ 53 - 1) * 2 ^ 971 < 2 ^ 1024 - |q|

private theorem Decimal.overflow_eq : overflow = (2 ^ 54 - 1) * 2 ^ 970 := by decide +kernel

/-- The decimals that round to finite doubles lie below one bound. -/
private theorem isNearFinite_iff {q : ℚ} : IsNearFinite q ↔ |q| < Decimal.overflow := by
  have hgreatest : (2 : ℚ) ^ 971 = 2 * 2 ^ 970 := pow_succ' ..
  have hnext : (2 : ℚ) ^ 1024 = 2 ^ 54 * 2 ^ 970 := pow_add 2 54 970
  have hoverflow : (Decimal.overflow : ℚ) = (2 ^ 54 - 1) * 2 ^ 970 := by
    rw [Decimal.overflow_eq, Nat.cast_mul, Nat.cast_pow, Nat.cast_ofNat]
    norm_num
  -- what is left is linear in the power that the three have in common
  rw [IsNearFinite, hoverflow, hgreatest, hnext]
  generalize (2 : ℚ) ^ 970 = p
  constructor
  · intro h
    linarith
  · intro h
    linarith

namespace Decimal

private theorem overflow_pos : 0 < overflow := by decide +kernel

private theorem overflow_le_of_lt {e : Nat} (h : 400 < e) : overflow ≤ 10 ^ e :=
  calc overflow ≤ 10 ^ 401 := by decide +kernel
    _ ≤ 10 ^ e := Nat.pow_le_pow_right (by norm_num) h

/-- A number of fewer than three bits to each digit has fewer digits. -/
theorem mul_two_pow_lt_of_log2_lt {m j k : Nat} (h : m.log2 + j < 3 * k) : m * 2 ^ j < 10 ^ k :=
  calc m * 2 ^ j < 2 ^ (m.log2 + 1) * 2 ^ j := Nat.mul_lt_mul_of_pos_right Nat.lt_log2_self (by positivity)
    _ = 2 ^ (m.log2 + j + 1) := by ring
    _ ≤ 2 ^ (3 * k) := Nat.pow_le_pow_right (by norm_num) h
    _ = 8 ^ k := pow_mul 2 3 k
    _ ≤ 10 ^ k := Nat.pow_le_pow_left (by norm_num) k

/-- The test of a decimal compares its magnitude with the bound, by integers alone. -/
private theorem isFinite_iff (d : Decimal) : d.isFinite ↔ |d.value| < overflow := by
  rw [abs_value]
  obtain ⟨negative, m, e | k⟩ := d
  · have hcast : ((m : ℚ) * 10 ^ (Int.ofNat e) < overflow) ↔ m * 10 ^ e < overflow := by
      rw [Int.ofNat_eq_natCast, zpow_natCast]
      exact_mod_cast Iff.rfl
    simp only [isFinite, Nat.pow_eq, hcast, Bool.or_eq_true, Bool.and_eq_true, decide_eq_true_eq]
    constructor
    · rintro (rfl | h)
      · simpa using overflow_pos
      · exact h.2
    · intro h
      by_cases hm : m = 0
      · exact .inl hm
      · refine .inr ⟨?_, h⟩
        -- a power of ten beyond 400 is too large by itself
        by_contra he
        have hle := overflow_le_of_lt (Nat.lt_of_not_le he)
        have hmul := Nat.le_mul_of_pos_left (10 ^ e) (Nat.pos_of_ne_zero hm)
        omega
  · have hcast : ((m : ℚ) * 10 ^ (Int.negSucc k) < overflow) ↔ m < overflow * 10 ^ (k + 1) := by
      rw [zpow_negSucc, ← div_eq_mul_inv, div_lt_iff₀ (by positivity)]
      exact_mod_cast Iff.rfl
    simp only [isFinite, Nat.pow_eq, hcast, Bool.or_eq_true, decide_eq_true_eq, or_iff_right_iff_imp]
    intro h
    calc m < 10 ^ (k + 1) := by simpa using mul_two_pow_lt_of_log2_lt (j := 0) h
      _ ≤ overflow * 10 ^ (k + 1) := Nat.le_mul_of_pos_left _ overflow_pos

end Decimal

/-- A literal stands for a finite double if and only if it writes a decimal that rounds to one. -/
theorem isSome_finiteOfLiteral?_iff {raw : String} :
    (finiteOfLiteral? raw).isSome ↔ ∃ q, WritesDecimal raw.toList q ∧ IsNearFinite q := by
  simp only [finiteOfLiteral?, Option.isSome_map, Option.isSome_filter, Option.any_eq_true, Decimal.isFinite_iff,
    ← exists_decimalOfLiteral?_iff, isNearFinite_iff]
  constructor
  · rintro ⟨d, hd, hfinite⟩
    exact ⟨d.value, ⟨d, hd, rfl⟩, hfinite⟩
  · rintro ⟨q, ⟨d, hd, rfl⟩, hfinite⟩
    exact ⟨d, hd, hfinite⟩

private theorem IsDigits.exists_writesNat {digits : List Char} (h : IsDigits digits) : ∃ n, WritesNat digits n :=
  ⟨_, h.ne_nil, h.isDigit, rfl⟩

private theorem IsInteger.exists_writesNat {integer : List Char} (h : IsInteger integer) :
    ∃ digits n, WritesNat digits n ∧ (integer = digits ∨ integer = '-' :: digits) := by
  cases h with
  | pos h =>
    obtain ⟨n, hn⟩ := h.isDigits.exists_writesNat
    exact ⟨_, n, hn, .inl rfl⟩
  | neg h =>
    obtain ⟨n, hn⟩ := h.isDigits.exists_writesNat
    exact ⟨_, n, hn, .inr rfl⟩

private theorem IsFraction.exists_writesFraction {fraction : List Char} (h : IsFraction fraction) :
    ∃ q, WritesFraction fraction q := by
  cases h with
  | nil => exact ⟨0, .nil⟩
  | digits h =>
    obtain ⟨n, hn⟩ := h.exists_writesNat
    exact ⟨_, .digits hn⟩

private theorem IsExponent.exists_writesPower {exponent : List Char} (h : IsExponent exponent) :
    ∃ i, WritesPower exponent i := by
  cases h with
  | nil => exact ⟨0, .nil⟩
  | digits hmark h =>
    obtain ⟨n, hn⟩ := h.exists_writesNat
    exact ⟨n, .int hmark (.pos hn)⟩
  | signed hmark hsign h =>
    obtain ⟨n, hn⟩ := h.exists_writesNat
    rcases hsign with rfl | rfl
    · exact ⟨n, .plus hmark hn⟩
    · exact ⟨-n, .int hmark (.neg hn)⟩

/-- What is scanned as a number writes a decimal, and an integer if it is no float. -/
theorem writes_of_scan {text : List Char} {s : Scan} (h : scan text = .ok s) :
    (∃ q, WritesDecimal s.taken q) ∧ (isFloat s.taken = false → ∃ i, WritesInt s.taken i) := by
  obtain ⟨integer, fraction, power, hparts⟩ := (isLiteral_of_scan h).1
  obtain ⟨whole, n, hn, hwhole⟩ := hparts.isInteger.exists_writesNat
  obtain ⟨q, hq⟩ := hparts.isFraction.exists_writesFraction
  obtain ⟨i, hi⟩ := hparts.isExponent.exists_writesPower
  rw [hparts.eq]
  have hwrites := WritesMagnitude.mk hn hq hi
  constructor
  · rcases hwhole with hwhole | hwhole <;> rw [hwhole]
    · exact ⟨_, .pos hwrites⟩
    · exact ⟨_, .neg hwrites⟩
  · -- without a dot and a mark nothing comes after the integer
    intro hfloat
    simp only [isFloat, List.any_append, Bool.or_eq_false_iff] at hfloat
    obtain rfl : fraction = [] := by
      cases hq with
      | nil => rfl
      | digits => simp at hfloat
    obtain rfl : power = [] := by
      cases hi with
      | nil => rfl
      | int hmark | plus hmark => rcases hmark with rfl | rfl <;> simp at hfloat
    rw [List.append_nil, List.append_nil]
    rcases hwhole with hwhole | hwhole <;> rw [hwhole]
    · exact ⟨_, .pos hn⟩
    · exact ⟨_, .neg hn⟩

end Number

/-- The numbers of a document write integers and decimals. -/
theorem Token.Kind.Genuine.writes_number {kind : Token.Kind} (h : kind.Genuine) :
    (∀ raw, kind = .int raw → ∃ i, Number.WritesInt raw.toList i) ∧
      ∀ raw, kind = .float raw → ∃ q, Number.WritesDecimal raw.toList q := by
  constructor
  · rintro raw rfl
    obtain ⟨c, text, s, hscan, rfl, hkind, -⟩ := h.exists_scan rfl
    cases hfloat : Number.isFloat s.taken with
    | true => simp [hfloat] at hkind
    | false => simpa using (Number.writes_of_scan hscan).2 hfloat
  · rintro raw rfl
    obtain ⟨c, text, s, hscan, rfl, -⟩ := h.exists_scan rfl
    simpa using (Number.writes_of_scan hscan).1

end GraphQL
