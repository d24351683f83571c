import LayeredConfig.Decimal.Binary64
import Mathlib.Algebra.Order.Ring.Nat

/-!
# How large rounded numbers are

The exponent field of a rounded quotient is bounded by the size of the quotient (`exponentField_ofRatio_le`),
and from below if the quotient is at least one (`le_exponentField_ofRatio`). So the division by a number of at
least one hardly raises the exponent (`exponentField_div_le`), and what is below the largest finite number by
a wide margin rounds to a finite number. The bounds are not tight, as the margin is wide wherever they are used.
-/

namespace LayeredConfig.Binary64

variable {x y : Binary64} {num den m a : Nat} {negative : Bool}

/-! ## Fields -/

theorem isFinite_of_exponentField (h : x.exponentField < 2047) : x.isFinite := by
  simpa [isFinite] using Nat.ne_of_lt h

theorem exponentField_ofMagnitude {magnitude : Nat} (h : magnitude ≤ infinityBits) :
    (ofMagnitude negative magnitude).exponentField = magnitude / Nat.pow 2 52 := by
  have hbits : (magnitude + if negative then Nat.pow 2 63 else 0) < UInt64.size := by
    cases negative <;> simp [infinityBits, UInt64.size] at h ⊢ <;> omega
  show (UInt64.ofNat _).toNat / Nat.pow 2 52 % Nat.pow 2 11 = _
  rw [UInt64.toNat_ofNat', Nat.mod_eq_of_lt hbits]
  cases negative <;> simp [infinityBits] at h ⊢ <;> omega

theorem fraction_lt (x : Binary64) : x.fraction < 2 ^ 52 := Nat.mod_lt _ (by decide)

theorem significand_lt (x : Binary64) : x.significand < 2 ^ 53 := by
  have := x.fraction_lt
  unfold significand
  split
  · omega
  · show 2 ^ 52 + x.fraction < 2 ^ 53
    omega

theorem le_significand (h : x.exponentField ≠ 0) : 2 ^ 52 ≤ x.significand := by
  rw [significand, if_neg h]
  exact Nat.le_add_right _ _

/-! ## Rounding -/

theorem roundHalfEven_le (num den : Nat) : roundHalfEven num den ≤ num / den + 1 := by
  unfold roundHalfEven
  simp only
  split
  · omega
  · split <;> omega

/-- The exponent at which a quotient is rounded. -/
def roundingExponent (num den : Nat) : Int :=
  let least := max ((num.log2 : Int) - den.log2 - 53) (-1074)
  if Nat.pow 2 53 * (den * powerOfTwo least) ≤ num * powerOfTwo (-least) then least + 1 else least

theorem nearestMagnitude_eq (h : num ≠ 0) :
    nearestMagnitude num den =
      min ((roundingExponent num den + 1074).toNat * Nat.pow 2 52 +
        roundHalfEven (num * powerOfTwo (-roundingExponent num den)) (den * powerOfTwo (roundingExponent num den)))
        infinityBits := by
  rw [nearestMagnitude, if_neg h]
  simp only [roundingExponent, decide_eq_true_eq]

theorem nearestMagnitude_le_infinityBits (num den : Nat) : nearestMagnitude num den ≤ infinityBits := by
  by_cases h : num = 0
  · rw [nearestMagnitude, if_pos h]
    exact Nat.zero_le _
  · rw [nearestMagnitude_eq h]
    exact Nat.min_le_right _ _

theorem roundingExponent_cases (num den : Nat) :
    roundingExponent num den = max ((num.log2 : Int) - den.log2 - 53) (-1074) ∨
      roundingExponent num den = max ((num.log2 : Int) - den.log2 - 53) (-1074) + 1 := by
  unfold roundingExponent
  simp only
  split
  · exact Or.inr rfl
  · exact Or.inl rfl

/-- The exponent is chosen so that 54 bits are left of a quotient. -/
theorem scaled_lt (hden : den ≠ 0) :
    num * powerOfTwo (-roundingExponent num den) < 2 ^ 54 * (den * powerOfTwo (roundingExponent num den)) := by
  have hexponent : num.log2 + 1 + (-roundingExponent num den).toNat ≤
      54 + den.log2 + (roundingExponent num den).toNat := by
    rcases roundingExponent_cases num den with h | h <;> omega
  show num * 2 ^ (-roundingExponent num den).toNat < 2 ^ 54 * (den * 2 ^ (roundingExponent num den).toNat)
  calc num * 2 ^ (-roundingExponent num den).toNat
      < 2 ^ (num.log2 + 1) * 2 ^ (-roundingExponent num den).toNat :=
        Nat.mul_lt_mul_of_pos_right Nat.lt_log2_self (Nat.two_pow_pos _)
    _ = 2 ^ (num.log2 + 1 + (-roundingExponent num den).toNat) := (Nat.pow_add ..).symm
    _ ≤ 2 ^ (54 + den.log2 + (roundingExponent num den).toNat) := Nat.pow_le_pow_right (by decide) hexponent
    _ = 2 ^ 54 * (2 ^ den.log2 * 2 ^ (roundingExponent num den).toNat) := by
        rw [Nat.pow_add, Nat.pow_add, Nat.mul_assoc]
    _ ≤ 2 ^ 54 * (den * 2 ^ (roundingExponent num den).toNat) :=
        Nat.mul_le_mul_left _ (Nat.mul_le_mul_right _ (Nat.log2_self_le hden))

theorem log2_lt_of_lt_pow_mul (hnum : num ≠ 0) (h : num < 2 ^ m * den) : num.log2 < m + den.log2 + 1 := by
  refine (Nat.pow_lt_pow_iff_right (by decide : 1 < 2)).mp ?_
  calc 2 ^ num.log2 ≤ num := Nat.log2_self_le hnum
    _ < 2 ^ m * den := h
    _ ≤ 2 ^ m * 2 ^ (den.log2 + 1) := Nat.mul_le_mul_left _ (Nat.le_of_lt Nat.lt_log2_self)
    _ = 2 ^ (m + den.log2 + 1) := (Nat.pow_add ..).symm

theorem nearestMagnitude_le (hden : den ≠ 0) (h : num < 2 ^ m * den) :
    nearestMagnitude num den ≤ (m + 1026) * 2 ^ 52 := by
  by_cases hnum : num = 0
  · rw [nearestMagnitude, if_pos hnum]
    exact Nat.zero_le _
  have hexponent : (roundingExponent num den + 1074).toNat ≤ m + 1022 := by
    have := log2_lt_of_lt_pow_mul hnum h
    rcases roundingExponent_cases num den with h | h <;> omega
  have hscaled : den * powerOfTwo (roundingExponent num den) ≠ 0 :=
    Nat.mul_ne_zero hden (Nat.ne_of_gt (Nat.two_pow_pos _))
  have hsignificand : roundHalfEven (num * powerOfTwo (-roundingExponent num den))
      (den * powerOfTwo (roundingExponent num den)) ≤ 2 ^ 54 :=
    (roundHalfEven_le _ _).trans ((Nat.div_lt_iff_lt_mul (Nat.pos_of_ne_zero hscaled)).mpr (scaled_lt hden))
  rw [nearestMagnitude_eq hnum]
  refine (Nat.min_le_left _ _).trans ?_
  calc _ ≤ (m + 1022) * 2 ^ 52 + 2 ^ 54 := Nat.add_le_add (Nat.mul_le_mul_right _ hexponent) hsignificand
    _ = (m + 1026) * 2 ^ 52 := by omega

theorem le_nearestMagnitude (hden : den ≠ 0) (h : den ≤ num) : 1021 * 2 ^ 52 ≤ nearestMagnitude num den := by
  have hnum : num ≠ 0 := fun hzero => hden (Nat.le_zero.mp (hzero ▸ h))
  have hlog : den.log2 ≤ num.log2 := (Nat.le_log2 hnum).mpr ((Nat.log2_self_le hden).trans h)
  have hexponent : 1021 ≤ (roundingExponent num den + 1074).toNat := by
    rcases roundingExponent_cases num den with h | h <;> omega
  rw [nearestMagnitude_eq hnum]
  refine Nat.le_min.mpr ⟨?_, by decide⟩
  exact (Nat.mul_le_mul_right _ hexponent).trans (Nat.le_add_right _ _)

/-! ## Exponents of results -/

theorem exponentField_ofRatio_le (hden : den ≠ 0) (h : num < 2 ^ m * den) :
    (ofRatio negative num den).exponentField ≤ m + 1026 := by
  rw [ofRatio, exponentField_ofMagnitude (nearestMagnitude_le_infinityBits num den)]
  exact Nat.div_le_of_le_mul (Nat.mul_comm _ _ ▸ nearestMagnitude_le hden h)

theorem le_exponentField_ofRatio (hden : den ≠ 0) (h : den ≤ num) :
    1021 ≤ (ofRatio negative num den).exponentField := by
  rw [ofRatio, exponentField_ofMagnitude (nearestMagnitude_le_infinityBits num den)]
  exact (Nat.le_div_iff_mul_le (by decide)).mpr (le_nearestMagnitude hden h)

/-- **A division by a number that is not far below one raises the exponent by six at most.** -/
theorem exponentField_div_le (ha : 1021 ≤ a) (hx : x.exponentField ≤ a) (hy : 1021 ≤ y.exponentField) :
    (x.div y).exponentField ≤ a + 6 := by
  have hnonzero : y.exponentField ≠ 0 := by omega
  have hpositive : y.significand ≠ 0 := by
    have := le_significand hnonzero
    omega
  have hexponent : (x.exponent - y.exponent).toNat + 53 ≤
      a - 1020 + 52 + (-(x.exponent - y.exponent)).toNat := by
    unfold exponent
    omega
  have hquotient : x.significand * powerOfTwo (x.exponent - y.exponent) <
      2 ^ (a - 1020) * (y.significand * powerOfTwo (-(x.exponent - y.exponent))) := by
    show _ * 2 ^ (x.exponent - y.exponent).toNat < _ * (_ * 2 ^ (-(x.exponent - y.exponent)).toNat)
    calc x.significand * 2 ^ (x.exponent - y.exponent).toNat
        < 2 ^ 53 * 2 ^ (x.exponent - y.exponent).toNat :=
          Nat.mul_lt_mul_of_pos_right x.significand_lt (Nat.two_pow_pos _)
      _ = 2 ^ ((x.exponent - y.exponent).toNat + 53) := by rw [Nat.pow_add, Nat.mul_comm]
      _ ≤ 2 ^ (a - 1020 + 52 + (-(x.exponent - y.exponent)).toNat) := Nat.pow_le_pow_right (by decide) hexponent
      _ = 2 ^ (a - 1020) * (2 ^ 52 * 2 ^ (-(x.exponent - y.exponent)).toNat) := by
          rw [Nat.pow_add, Nat.pow_add, Nat.mul_assoc]
      _ ≤ 2 ^ (a - 1020) * (y.significand * 2 ^ (-(x.exponent - y.exponent)).toNat) :=
          Nat.mul_le_mul_left _ (Nat.mul_le_mul_right _ (le_significand hnonzero))
  have hden : y.significand * powerOfTwo (-(x.exponent - y.exponent)) ≠ 0 :=
    Nat.mul_ne_zero hpositive (Nat.ne_of_gt (Nat.two_pow_pos _))
  have hfield : (x.div y).exponentField ≤ a - 1020 + 1026 := exponentField_ofRatio_le hden hquotient
  omega

/-! ## Finite numbers -/

theorem isFinite_zero (negative : Bool) : (zero negative).isFinite := by cases negative <;> decide

theorem isFinite_of_isZero (h : x.isZero) : x.isFinite := by
  refine isFinite_of_exponentField ?_
  rw [isZero, Bool.and_eq_true, beq_iff_eq] at h
  rw [h.1]
  decide

theorem isFinite_ofRatio (hden : den ≠ 0) (h : num < 2 ^ 64 * den) : (ofRatio negative num den).isFinite :=
  isFinite_of_exponentField (Nat.lt_of_le_of_lt (exponentField_ofRatio_le hden h) (by decide))

end LayeredConfig.Binary64
