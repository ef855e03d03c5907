import GraphQL.Proofs.NumberLiterals
import Mathlib.Algebra.Ring.Parity
import Mathlib.Order.Monotone.Basic
import Mathlib.Tactic.Positivity

/-!
# The double nearest to a literal

The bits of doubles count them by magnitude: the next bits are those of the next double (`units_succ`), and an even
last bit is an even last digit of the mantissa. So the double nearest to a number is one of the two beside it
(`isNearest_of_lower`, `isNearest_of_upper`), and of two that are equally near the one with even bits
(`isNearest_of_half`). The bits of a literal are found so (`isNearest_nearestBits`), which makes its double the only one
that is nearest to the decimal it writes (`writesDouble_iff`).
-/

namespace GraphQL.Number

/-- The magnitude of the double with these bits, in units of the least one. There is a leading bit before the fraction,
unless the exponent is zero. -/
def units (bits : Nat) : Nat :=
  if bits < 2 ^ 52 then bits else (2 ^ 52 + bits % 2 ^ 52) * 2 ^ (bits / 2 ^ 52 - 1)

/-- The magnitude of the double with these bits, and for infinity the power of two that would come next. -/
def magnitude (bits : Nat) : ℚ := units bits / 2 ^ 1074

/-- The magnitude with these bits is nearest to the number, of two that are equally near the even one. The bits
`2047 * 2 ^ 52` are those of infinity. -/
structure IsNearest (q : ℚ) (bits : Nat) : Prop where
  le_infinity : bits ≤ 2047 * 2 ^ 52
  nearest : ∀ other ≤ 2047 * 2 ^ 52, |q - magnitude bits| ≤ |q - magnitude other|
  even : ∀ other ≤ 2047 * 2 ^ 52, other ≠ bits → |q - magnitude other| = |q - magnitude bits| → Even bits

/-- From one double to the next it is a power of two, which only grows with the exponent. -/
theorem units_succ (bits : Nat) : units (bits + 1) = units bits + 2 ^ (bits / 2 ^ 52 - 1) := by
  unfold units
  by_cases hbits : bits < 2 ^ 52
  · have hexponent : bits / 2 ^ 52 - 1 = 0 := by omega
    rw [if_pos hbits, hexponent]
    split
    · rfl
    · obtain rfl : bits = 2 ^ 52 - 1 := by omega
      rfl
  · obtain ⟨e, hexponent⟩ : ∃ e, bits / 2 ^ 52 = e + 1 := ⟨bits / 2 ^ 52 - 1, by omega⟩
    rw [if_neg hbits, if_neg (by omega), hexponent, Nat.add_sub_cancel]
    by_cases hcarry : bits % 2 ^ 52 = 2 ^ 52 - 1
    · -- the fraction is full, the next double is a power of two
      have hfraction : (bits + 1) % 2 ^ 52 = 0 := by omega
      have hnext : (bits + 1) / 2 ^ 52 - 1 = e + 1 := by omega
      rw [hcarry, hfraction, hnext, pow_succ]
      omega
    · have hfraction : (bits + 1) % 2 ^ 52 = bits % 2 ^ 52 + 1 := by omega
      have hnext : (bits + 1) / 2 ^ 52 - 1 = e := by omega
      rw [hfraction, hnext]
      ring

private theorem strictMono_magnitude : StrictMono magnitude := by
  have hunits : StrictMono units := strictMono_nat_of_lt_succ fun bits => by
    rw [units_succ]
    exact Nat.lt_add_of_pos_right (by positivity)
  intro a b h
  exact div_lt_div_of_pos_right (by exact_mod_cast hunits h) (by positivity)

/-- A mantissa of 53 bits, the last of which counts as `2 ^ scale` units. -/
theorem units_scale {scale mantissa : Nat} (h : scale = 0 ∨ 2 ^ 52 ≤ mantissa) (hle : mantissa ≤ 2 ^ 53) :
    units (scale * 2 ^ 52 + mantissa) = mantissa * 2 ^ scale := by
  unfold units
  split
  · obtain rfl : scale = 0 := by omega
    simp
  · by_cases hcarry : mantissa = 2 ^ 53
    · subst hcarry
      have hexponent : (scale * 2 ^ 52 + 2 ^ 53) / 2 ^ 52 - 1 = scale + 1 := by omega
      have hfraction : (scale * 2 ^ 52 + 2 ^ 53) % 2 ^ 52 = 0 := by omega
      rw [hexponent, hfraction, pow_succ]
      omega
    · have hexponent : (scale * 2 ^ 52 + mantissa) / 2 ^ 52 - 1 = scale := by omega
      have hfraction : 2 ^ 52 + (scale * 2 ^ 52 + mantissa) % 2 ^ 52 = mantissa := by omega
      rw [hexponent, hfraction]

section
variable {q : ℚ} {bits lo : Nat}

private theorem isNearest_of_lt (hle : bits ≤ 2047 * 2 ^ 52)
    (h : ∀ other ≤ 2047 * 2 ^ 52, other ≠ bits → |q - magnitude bits| < |q - magnitude other|) :
    IsNearest q bits where
  le_infinity := hle
  nearest other hother := by
    by_cases heq : other = bits
    · rw [heq]
    · exact (h other hother heq).le
  even other hother hne heq := absurd heq (h other hother hne).ne'

/-- Below a number, the greater double is the nearer one. -/
theorem abs_sub_lt_of_lt (hlo : magnitude lo ≤ q) {other : Nat} (h : other < lo) :
    |q - magnitude lo| < |q - magnitude other| := by
  have hlt := strictMono_magnitude h
  rw [abs_of_nonneg (by linarith), abs_of_nonneg (by linarith)]
  linarith

private theorem abs_sub_lt_of_gt (hhi : q ≤ magnitude lo) {other : Nat} (h : lo < other) :
    |q - magnitude lo| < |q - magnitude other| := by
  have hlt := strictMono_magnitude h
  rw [abs_of_nonpos (by linarith), abs_of_nonpos (by linarith)]
  linarith

private theorem isNearest_infinity (h : magnitude (2047 * 2 ^ 52) ≤ q) : IsNearest q (2047 * 2 ^ 52) :=
  isNearest_of_lt le_rfl fun _ hother hne => abs_sub_lt_of_lt h (lt_of_le_of_ne hother hne)

/-- Past a number, the double beside it is at most as far as the others. -/
theorem abs_sub_succ_le (hhi : q ≤ magnitude (lo + 1)) {other : Nat} (h : lo < other) :
    magnitude (lo + 1) - q ≤ |q - magnitude other| := by
  have hle := strictMono_magnitude.monotone (Nat.succ_le_of_lt h)
  rw [abs_of_nonpos (by linarith)]
  linarith

private theorem abs_sub_le (hlo : magnitude lo ≤ q) {other : Nat} (h : other ≤ lo) :
    q - magnitude lo ≤ |q - magnitude other| := by
  have hle := strictMono_magnitude.monotone h
  rw [abs_of_nonneg (by linarith)]
  linarith

/-- Between two neighbours the lower one is nearest if it is nearer. -/
theorem isNearest_of_lower (hle : lo ≤ 2047 * 2 ^ 52) (hlo : magnitude lo ≤ q)
    (h : q - magnitude lo < magnitude (lo + 1) - q) : IsNearest q lo := by
  refine isNearest_of_lt hle fun other _ hne => ?_
  rcases Nat.lt_or_gt_of_ne hne with hlt | hgt
  · exact abs_sub_lt_of_lt hlo hlt
  · have hother := abs_sub_succ_le (q := q) (by linarith) hgt
    rw [abs_of_nonneg (by linarith)]
    linarith

/-- Between two neighbours the upper one is nearest if it is nearer. -/
theorem isNearest_of_upper (hlt : lo < 2047 * 2 ^ 52) (hhi : q ≤ magnitude (lo + 1))
    (h : magnitude (lo + 1) - q < q - magnitude lo) : IsNearest q (lo + 1) := by
  refine isNearest_of_lt hlt fun other _ hne => ?_
  rcases Nat.lt_or_gt_of_ne hne with hlt | hgt
  · have hother := abs_sub_le (q := q) (by linarith) (Nat.le_of_lt_succ hlt)
    rw [abs_of_nonpos (by linarith)]
    linarith
  · exact abs_sub_lt_of_gt hhi hgt

/-- Half way between two doubles, the one with even bits is chosen. -/
theorem isNearest_of_half (hlt : lo < 2047 * 2 ^ 52) (h : q - magnitude lo = magnitude (lo + 1) - q) :
    IsNearest q (lo + lo % 2) := by
  have hstep := strictMono_magnitude (Nat.lt_succ_self lo)
  have hnear : |q - magnitude (lo + lo % 2)| = q - magnitude lo := by
    rcases Nat.mod_two_eq_zero_or_one lo with heven | hodd
    · rw [heven, Nat.add_zero, abs_of_nonneg (by linarith)]
    · rw [hodd, abs_of_nonpos (by linarith)]
      linarith
  refine ⟨by omega, fun other _ => ?_, fun _ _ _ _ => Nat.even_iff.2 (by omega)⟩
  rw [hnear]
  rcases Nat.lt_or_ge lo other with hgt | hle
  · exact h ▸ abs_sub_succ_le (by linarith) hgt
  · exact abs_sub_le (by linarith) hle

/-- Which of two doubles is chosen is told by the rest of a division that places the number between them. -/
theorem isNearest_of_rest {rest parts : Nat} {part : ℚ} (hpart : 0 < part) (hrest : rest < parts)
    (hlo : q - magnitude lo = rest * part) (hhi : magnitude (lo + 1) - q = (parts - rest) * part)
    (hlt : lo < 2047 * 2 ^ 52) :
    IsNearest q (if 2 * rest < parts then lo else if parts < 2 * rest then lo + 1 else lo + lo % 2) := by
  have hbelow : 0 ≤ q - magnitude lo := hlo ▸ by positivity
  have habove : 0 ≤ magnitude (lo + 1) - q := by
    rw [hhi]
    exact mul_nonneg (sub_nonneg.2 (by exact_mod_cast hrest.le)) hpart.le
  split
  · next hlower =>
    have hlower : (2 * rest : ℚ) < parts := by exact_mod_cast hlower
    refine isNearest_of_lower hlt.le (sub_nonneg.1 hbelow) ?_
    rw [hlo, hhi]
    exact mul_lt_mul_of_pos_right (by linarith) hpart
  · next hlower =>
    split
    · next hupper =>
      have hupper : (parts : ℚ) < 2 * rest := by exact_mod_cast hupper
      refine isNearest_of_upper hlt (sub_nonneg.1 habove) ?_
      rw [hlo, hhi]
      exact mul_lt_mul_of_pos_right (by linarith) hpart
    · next hupper =>
      have hhalf : (parts : ℚ) = 2 * rest := by exact_mod_cast (by omega : parts = 2 * rest)
      refine isNearest_of_half hlt ?_
      rw [hlo, hhi, hhalf]
      ring

/-- There is one double nearest to a number: between two that are equally near and have even bits there would be a
nearer one. -/
theorem IsNearest.unique {other : Nat} (h : IsNearest q bits) (h' : IsNearest q other) : bits = other := by
  wlog hle : bits ≤ other generalizing bits other
  · exact (this h' h (Nat.le_of_not_le hle)).symm
  by_contra hne
  have heq := le_antisymm (h.nearest other h'.le_infinity) (h'.nearest bits h.le_infinity)
  have heven := h.even other h'.le_infinity (Ne.symm hne) heq.symm
  have heven' := h'.even bits h.le_infinity hne heq
  have hbetween : bits + 1 < other := by
    rw [Nat.even_iff] at heven heven'
    omega
  have hlt := strictMono_magnitude (Nat.lt_add_one bits)
  have hgt := strictMono_magnitude hbetween
  have hcloser : |q - magnitude (bits + 1)| < |q - magnitude bits| := by
    rcases abs_eq_abs.1 heq with hsame | hhalf
    · linarith
    · have hbits : 0 ≤ q - magnitude bits := by linarith
      rw [abs_of_nonneg hbits, abs_lt]
      constructor <;> linarith
  exact absurd (h.nearest (bits + 1) (hbetween.le.trans h'.le_infinity)) (not_le.2 hcloser)

end

/-! ### The bits of a fraction -/

private theorem scale_cases (t : Nat) :
    t / 2 ^ (t.log2 - 52) < 2 ^ 53 ∧ (t.log2 - 52 = 0 ∨ 2 ^ 52 ≤ t / 2 ^ (t.log2 - 52)) := by
  have hlt : t < 2 ^ (t.log2 + 1) := Nat.lt_log2_self
  by_cases h : t.log2 ≤ 52
  · have hscale : t.log2 - 52 = 0 := by omega
    have hpow : 2 ^ (t.log2 + 1) ≤ 2 ^ 53 := Nat.pow_le_pow_right (by norm_num) (by omega)
    rw [hscale]
    exact ⟨by simpa using hlt.trans_le hpow, .inl rfl⟩
  · obtain ⟨scale, hscale⟩ : ∃ scale, t.log2 = 52 + scale := ⟨t.log2 - 52, by omega⟩
    have hle : 2 ^ t.log2 ≤ t := Nat.log2_self_le (by rintro rfl; simp at h)
    rw [hscale] at hlt hle ⊢
    rw [Nat.add_sub_cancel_left]
    refine ⟨(Nat.div_lt_iff_lt_mul (by positivity)).2 ?_, .inr ((Nat.le_div_iff_mul_le (by positivity)).2 ?_)⟩
    · calc t < 2 ^ (52 + scale + 1) := hlt
        _ = 2 ^ 53 * 2 ^ scale := by ring
    · calc 2 ^ 52 * 2 ^ scale = 2 ^ (52 + scale) := by ring
        _ ≤ t := hle

/-- The bits of a fraction are those of the double nearest to it. -/
theorem isNearest_nearestBits {q : ℚ} {a b : Nat} (hb : 0 < b) (hq : q = a / b / 2 ^ 1074) :
    IsNearest q (nearestBits a b) := by
  obtain ⟨hmantissa, hnormal⟩ := scale_cases (a / b)
  simp only [nearestBits, roundHalfEven, infinityBits, Nat.shiftLeft_eq]
  generalize (a / b).log2 - 52 = scale at *
  rw [Nat.div_div_eq_div_mul] at hmantissa hnormal
  have hrest : a % (b * 2 ^ scale) < b * 2 ^ scale := Nat.mod_lt a (by positivity)
  have ha : (a : ℚ) = (b * 2 ^ scale) * (a / (b * 2 ^ scale) : Nat) + (a % (b * 2 ^ scale) : Nat) := by
    exact_mod_cast (Nat.div_add_mod a (b * 2 ^ scale)).symm
  have hunits := units_scale hnormal hmantissa.le
  have hnext := units_scale (hnormal.imp_right (Nat.le_add_right_of_le · (k := 1))) hmantissa
  generalize a / (b * 2 ^ scale) = mantissa at *
  generalize a % (b * 2 ^ scale) = rest at *
  rw [← Nat.add_assoc] at hnext
  obtain ⟨lo, hlo⟩ : ∃ lo, scale * 2 ^ 52 + mantissa = lo := ⟨_, rfl⟩
  rw [hlo] at hunits hnext
  have hbits : scale * 2 ^ 52 + (if 2 * rest < b * 2 ^ scale then mantissa
      else if b * 2 ^ scale < 2 * rest then mantissa + 1 else mantissa + mantissa % 2) =
      if 2 * rest < b * 2 ^ scale then lo else if b * 2 ^ scale < 2 * rest then lo + 1 else lo + lo % 2 := by
    split_ifs <;> omega
  -- the doubles beside the fraction are `2 ^ scale` units apart
  have hbelow : q - magnitude lo = rest * (1 / b / 2 ^ 1074) := by
    rw [hq, magnitude, hunits, ha]
    push_cast
    field_simp
    ring
  have habove : magnitude (lo + 1) - q = ((b * 2 ^ scale : Nat) - rest) * (1 / b / 2 ^ 1074) := by
    rw [hq, magnitude, hnext, ha]
    push_cast
    field_simp
    ring
  have hpart : (0 : ℚ) < 1 / b / 2 ^ 1074 := by positivity
  rw [hbits]
  by_cases hfinite : lo < 2047 * 2 ^ 52
  · rw [Nat.min_eq_left (by split_ifs <;> omega)]
    exact isNearest_of_rest hpart hrest hbelow habove hfinite
  · have hinfinite := Nat.le_of_not_lt hfinite
    have hlow : magnitude lo ≤ q := by
      rw [← sub_nonneg, hbelow]
      positivity
    rw [Nat.min_eq_right (by split_ifs <;> omega)]
    exact isNearest_infinity ((strictMono_magnitude.monotone hinfinite).trans hlow)

private theorem magnitude_infinity : magnitude (2047 * 2 ^ 52) = 2 ^ 1024 := by
  have hbits : 2047 * 2 ^ 52 = 2045 * 2 ^ 52 + 2 ^ 53 := by norm_num
  rw [magnitude, hbits, units_scale (.inr (by norm_num)) le_rfl, ← pow_add, div_eq_iff (by positivity), ← pow_add,
    Nat.cast_pow]
  rfl

/-- What is less than half the least double is nearest to zero. -/
theorem isNearest_zero {q : ℚ} (h0 : 0 ≤ q) (h : 2 * q < 1 / 2 ^ 1074) : IsNearest q 0 := by
  have hzero : magnitude 0 = 0 := by simp [magnitude, units]
  have hone : magnitude (0 + 1) = 1 / 2 ^ 1074 := by simp [magnitude, units]
  refine isNearest_of_lower (Nat.zero_le _) (hzero ▸ h0) ?_
  rw [hzero, hone]
  generalize (1 : ℚ) / 2 ^ 1074 = least at h ⊢
  linarith

private theorem Decimal.isNearest_doubleBits (d : Decimal) : IsNearest |d.value| d.doubleBits := by
  rw [abs_value]
  obtain ⟨negative, m, e | k⟩ := d
  · rw [Int.ofNat_eq_natCast, zpow_natCast]
    simp only [doubleBits, Nat.pow_eq, Nat.shiftLeft_eq]
    split
    · next hm =>
      rw [hm, Nat.cast_zero, zero_mul]
      exact isNearest_zero le_rfl (by rw [mul_zero]; positivity)
    · next hm =>
      split
      · next he =>
        refine isNearest_infinity ?_
        rw [magnitude_infinity]
        have hm : (1 : ℚ) ≤ m := by exact_mod_cast Nat.pos_of_ne_zero hm
        calc (2 : ℚ) ^ 1024 ≤ 10 ^ 401 := by exact_mod_cast (by decide +kernel : 2 ^ 1024 ≤ 10 ^ 401)
          _ ≤ 10 ^ e := pow_le_pow_right₀ (by norm_num) he
          _ ≤ m * 10 ^ e := le_mul_of_one_le_left (by positivity) hm
      · refine isNearest_nearestBits Nat.one_pos ?_
        simp only [Nat.cast_mul, Nat.cast_pow, Nat.cast_ofNat, Nat.cast_one, div_one]
        rw [mul_div_cancel_right₀ _ (by positivity)]
  · rw [zpow_negSucc, ← div_eq_mul_inv]
    simp only [doubleBits, Nat.pow_eq, Nat.shiftLeft_eq]
    split
    · next hsmall =>
      have hlt : m * 2 ^ (1074 + 1) < 10 ^ (k + 1) := mul_two_pow_lt_of_log2_lt (by omega)
      rw [pow_succ', mul_left_comm, ← mul_assoc] at hlt
      refine isNearest_zero (by positivity) ?_
      rw [← mul_div_assoc, div_lt_div_iff₀ (by positivity) (by positivity), one_mul]
      exact_mod_cast hlt
    · refine isNearest_nearestBits (by positivity) ?_
      simp only [Nat.cast_mul, Nat.cast_pow, Nat.cast_ofNat]
      rw [div_right_comm, mul_div_cancel_right₀ _ (by positivity)]

/-- The text writes the double: it is nearest to the decimal that the text writes, and negative, zero included, where a
minus stands before it. -/
inductive WritesDouble : List Char → Float → Prop where
  | pos {text : List Char} {q : ℚ} {bits : Nat} (h : WritesMagnitude text q) (hbits : IsNearest q bits) :
    WritesDouble text (.ofBits (.ofNat bits))
  | neg {text : List Char} {q : ℚ} {bits : Nat} (h : WritesMagnitude text q) (hbits : IsNearest q bits) :
    WritesDouble ('-' :: text) (.ofBits (.ofNat (2 ^ 63 + bits)))

/-- A literal is read as the double that it writes, and writes no other. -/
theorem writesDouble_iff {raw : String} {x : Float} :
    WritesDouble raw.toList x ↔ ∃ d, decimalOfLiteral? raw = some d ∧ d.toFloat = x := by
  constructor
  · intro h
    generalize htext : raw.toList = text at h
    cases h with
    | pos h hbits =>
      obtain ⟨d, hd, hsign, rfl⟩ := h.exists_decimal false htext
      exact ⟨d, hd, by simp [Decimal.toFloat, hsign, d.isNearest_doubleBits.unique hbits]⟩
    | neg h hbits =>
      obtain ⟨d, hd, hsign, rfl⟩ := h.exists_decimal true htext
      exact ⟨d, hd, by simp [Decimal.toFloat, hsign, d.isNearest_doubleBits.unique hbits]⟩
  · rintro ⟨d, hd, rfl⟩
    obtain ⟨text, htext, hwrites⟩ := writesMagnitude_of_decimalOfLiteral? hd
    rw [htext, Decimal.toFloat]
    split
    · exact .neg hwrites d.isNearest_doubleBits
    · exact .pos hwrites d.isNearest_doubleBits

/-- The double of a text that writes no decimal is not a number. -/
theorem floatOfLiteral_eq_iff {raw : String} {x : Float} : floatOfLiteral raw = x ↔
    WritesDouble raw.toList x ∨ (¬∃ q, WritesDecimal raw.toList q) ∧ x = 0.0 / 0.0 := by
  simp only [writesDouble_iff, ← exists_decimalOfLiteral?_iff, floatOfLiteral]
  cases decimalOfLiteral? raw with
  | some d => simp
  | none => simp [eq_comm]

example : floatOfLiteral "-2.50e-3" = -0.0025 := by decide +kernel

end GraphQL.Number
