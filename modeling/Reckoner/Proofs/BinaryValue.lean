import Mathlib.Algebra.Order.Floor.Ring
import Mathlib.Algebra.Order.Archimedean.Real.Basic
import Mathlib.Data.Int.Log
import Mathlib.Tactic.FieldSimp
import Mathlib.Tactic.Linarith
import Mathlib.Tactic.Positivity
import Reckoner.BigFloat
/-!
What a binary floating-point number is worth, and how near to a number one can be: to so many bits
(`BigFloat.Near`), or within a power of two (`Reals.Within`). How its magnitude bounds it, and what the
operations do that round nothing: sums, products, comparisons and integers.
-/
namespace Reckoner

theorem lt_two_pow_bitLength (n : ℕ) : n < 2 ^ bitLength n := by
  unfold bitLength
  split
  · rename_i hn
    rw [hn]
    exact Nat.one_pos
  · exact Nat.lt_log2_self

theorem two_pow_le_of_bitLength {n : ℕ} (hn : n ≠ 0) : 2 ^ (bitLength n - 1) ≤ n := by
  rw [bitLength, if_neg hn, Nat.add_sub_cancel]
  exact Nat.log2_self_le hn

theorem bitLength_pos {n : ℕ} (hn : n ≠ 0) : 0 < bitLength n := by
  rw [bitLength, if_neg hn]
  exact Nat.succ_pos _

/-- A number that reaches a power of two is longer than its exponent. -/
theorem lt_bitLength {n k : ℕ} (h : 2 ^ k ≤ n) : k < bitLength n :=
  (Nat.pow_lt_pow_iff_right Nat.one_lt_two).1 (h.trans_lt (lt_two_pow_bitLength n))

namespace BigFloat

/-- The number that mantissa and exponent stand for. -/
noncomputable def value (x : BigFloat) : ℝ := x.mantissa * (2 : ℝ) ^ x.exponent

/-- `x` is `z` to so many significant bits. -/
def Near (bits : ℕ) (x : BigFloat) (z : ℝ) : Prop := |x.value - z| ≤ |z| * 2 ^ (-(bits : ℤ))

/-- A real number to so many bits: the multiple below it of a power of two that is small for its size. -/
noncomputable def ofReal (bits : ℕ) (z : ℝ) : BigFloat :=
  ⟨⌊z * 2 ^ (bits - Int.log 2 |z|)⌋, Int.log 2 |z| - bits⟩

end BigFloat

/-- `x` is within `2 ^ -p` of `a`. -/
def Reals.Within (p : ℤ) (x a : ℝ) : Prop := |x - a| ≤ 2 ^ (-p)

/-- The size below which a number may count as zero. -/
noncomputable def Reals.zeroMargin : ℝ := 2 ^ (-4094 : ℤ)

namespace BigFloat

variable {x y : BigFloat}

theorem value_mk (m e : ℤ) : value ⟨m, e⟩ = m * (2 : ℝ) ^ e := rfl

theorem value_ofInt (n : ℤ) : (ofInt n).value = n := by simp [ofInt, value_mk]

theorem value_twoPow (k : ℤ) : (twoPow k).value = 2 ^ k := by simp [twoPow, value_mk]

theorem value_neg (x : BigFloat) : x.neg.value = -x.value := by simp [neg, value]

theorem value_abs (x : BigFloat) : x.abs.value = |x.value| := by
  rw [abs, value_mk, value, abs_mul, abs_of_pos (zpow_pos (two_pos (α := ℝ)) x.exponent)]
  simp

theorem value_mulExact (x y : BigFloat) : (x.mulExact y).value = x.value * y.value := by
  rw [mulExact, value_mk, value, value, zpow_add₀ two_ne_zero]
  push_cast
  ring

theorem value_eq_zero_iff : x.value = 0 ↔ x.mantissa = 0 := by
  simp [value, zpow_ne_zero x.exponent (two_ne_zero (α := ℝ))]

theorem value_pos_iff : 0 < x.value ↔ 0 < x.mantissa := by
  rw [value, mul_pos_iff_of_pos_right (zpow_pos two_pos _), Int.cast_pos]

theorem value_neg_iff : x.value < 0 ↔ x.mantissa < 0 := by
  rw [← neg_pos, ← value_neg, value_pos_iff, neg, neg_pos]

theorem isZero_iff : x.isZero = true ↔ x.value = 0 := by
  rw [value_eq_zero_iff, isZero, decide_eq_true_iff]

/-- A lower exponent has a longer mantissa. -/
theorem mantissaAt_mul {e : ℤ} (h : e ≤ x.exponent) :
    (x.mantissaAt e : ℝ) * 2 ^ e = x.value := by
  have hshift : (2 : ℝ) ^ x.exponent = 2 ^ (x.exponent - e).toNat * 2 ^ e := by
    rw [← zpow_natCast, ← zpow_add₀ two_ne_zero]
    congr 1
    omega
  rw [mantissaAt, value, hshift, Nat.one_shiftLeft]
  push_cast
  ring

theorem value_addExact (x y : BigFloat) : (x.addExact y).value = x.value + y.value := by
  unfold addExact
  split
  · rename_i hx
    rw [isZero_iff.1 hx, zero_add]
  · split
    · rename_i hy
      rw [isZero_iff.1 hy, add_zero]
    · rw [value_mk, Int.cast_add, add_mul, mantissaAt_mul (min_le_left _ _),
        mantissaAt_mul (min_le_right _ _)]

theorem value_subExact (x y : BigFloat) : (x.subExact y).value = x.value - y.value := by
  rw [subExact, value_addExact, value_neg, sub_eq_add_neg]

/-! Magnitudes. -/

theorem value_eq_sign_mul (x : BigFloat) :
    x.value = x.mantissa.sign * x.mantissa.natAbs * (2 : ℝ) ^ x.exponent := by
  rw [value, ← Int.cast_natCast x.mantissa.natAbs, ← Int.cast_mul, Int.sign_mul_natAbs]

theorem abs_value (x : BigFloat) : |x.value| = x.mantissa.natAbs * (2 : ℝ) ^ x.exponent := by
  rw [← value_abs, abs, value_mk, Int.cast_natCast]

theorem magnitude_of_ne_zero (h : x.mantissa ≠ 0) :
    x.magnitude = bitLength x.mantissa.natAbs + x.exponent := by
  rw [magnitude, isZero, if_neg (by simpa using h)]

theorem magnitude_of_eq_zero (h : x.mantissa = 0) : x.magnitude = 0 := by
  rw [magnitude, isZero, if_pos (by simpa using h)]

theorem abs_value_lt (x : BigFloat) : |x.value| < 2 ^ x.magnitude := by
  by_cases h : x.mantissa = 0
  · rw [value_eq_zero_iff.2 h, abs_zero]
    exact zpow_pos two_pos _
  · have hlt : (x.mantissa.natAbs : ℝ) < 2 ^ bitLength x.mantissa.natAbs := by
      exact_mod_cast lt_two_pow_bitLength x.mantissa.natAbs
    rw [abs_value, magnitude_of_ne_zero h, zpow_add₀ two_ne_zero, zpow_natCast]
    exact mul_lt_mul_of_pos_right hlt (zpow_pos two_pos _)

theorem two_zpow_le_abs_value (h : x.value ≠ 0) : 2 ^ (x.magnitude - 1) ≤ |x.value| := by
  have hm : x.mantissa ≠ 0 := mt value_eq_zero_iff.2 h
  have hn : x.mantissa.natAbs ≠ 0 := Int.natAbs_ne_zero.2 hm
  have hle : (2 : ℝ) ^ (bitLength x.mantissa.natAbs - 1) ≤ x.mantissa.natAbs := by
    exact_mod_cast two_pow_le_of_bitLength hn
  have hexp : x.magnitude - 1 = ((bitLength x.mantissa.natAbs - 1 : ℕ) : ℤ) + x.exponent := by
    have := bitLength_pos hn
    rw [magnitude_of_ne_zero hm]
    omega
  rw [abs_value, hexp, zpow_add₀ two_ne_zero, zpow_natCast]
  exact mul_le_mul_of_nonneg_right hle (zpow_pos two_pos _).le

theorem abs_value_lt_of_magnitude_lt (hy : y.value ≠ 0) (h : x.magnitude < y.magnitude) :
    |x.value| < |y.value| :=
  calc |x.value| < 2 ^ x.magnitude := abs_value_lt x
    _ ≤ 2 ^ (y.magnitude - 1) := zpow_le_zpow_right₀ one_le_two (by omega)
    _ ≤ |y.value| := two_zpow_le_abs_value hy

/-- Magnitudes that differ order two numbers that are not zero. -/
theorem magnitude_lt_iff (hx : x.value ≠ 0) (hy : y.value ≠ 0) (h : x.magnitude ≠ y.magnitude) :
    x.magnitude < y.magnitude ↔ |x.value| < |y.value| := by
  constructor
  · exact abs_value_lt_of_magnitude_lt hy
  · intro hlt
    refine (lt_or_gt_of_ne h).resolve_right fun hgt => ?_
    exact lt_asymm hlt (abs_value_lt_of_magnitude_lt hx hgt)

/-! Comparisons. -/

theorem value_lt_of_sign_lt (h : x.mantissa.sign < y.mantissa.sign) : x.value < y.value := by
  rcases lt_trichotomy x.mantissa 0 with hx | hx | hx
  · have hy : 0 ≤ y.mantissa := by
      by_contra hy
      rw [Int.sign_eq_neg_one_of_neg hx, Int.sign_eq_neg_one_of_neg (not_le.1 hy)] at h
      exact lt_irrefl _ h
    have hle : 0 ≤ y.value := le_of_not_gt fun hlt => absurd (value_neg_iff.1 hlt) (not_lt.2 hy)
    exact (value_neg_iff.2 hx).trans_le hle
  · rw [hx, Int.sign_zero, Int.sign_pos_iff] at h
    rw [value_eq_zero_iff.2 hx]
    exact value_pos_iff.2 h
  · rw [Int.sign_eq_one_of_pos hx] at h
    rcases Int.sign_trichotomy y.mantissa with hy | hy | hy <;> omega

/-- Signs and magnitudes decide as the digits would. -/
theorem lt_iff : lt x y = true ↔ x.value < y.value := by
  unfold lt
  split
  · rename_i hsign
    rw [decide_eq_true_iff]
    refine ⟨value_lt_of_sign_lt, fun h => ?_⟩
    exact (lt_or_gt_of_ne hsign).resolve_right fun hgt => lt_asymm h (value_lt_of_sign_lt hgt)
  · rename_i hsign
    have hsign : x.mantissa.sign = y.mantissa.sign := not_not.1 hsign
    split
    · rename_i hmag
      split
      · rename_i hx
        have hy : 0 < y.mantissa := by rwa [← Int.sign_pos_iff, ← hsign, Int.sign_pos_iff]
        have hx := value_pos_iff.2 hx
        have hy := value_pos_iff.2 hy
        rw [decide_eq_true_iff, magnitude_lt_iff hx.ne' hy.ne' hmag, abs_of_pos hx, abs_of_pos hy]
      · rename_i hx
        have hx : x.mantissa < 0 := by
          refine lt_of_le_of_ne (not_lt.1 hx) fun hx => hmag ?_
          have hy : y.mantissa = 0 := by
            rwa [hx, Int.sign_zero, eq_comm, Int.sign_eq_zero_iff_zero] at hsign
          rw [magnitude_of_eq_zero hx, magnitude_of_eq_zero hy]
        have hy : y.mantissa < 0 := by rwa [← Int.sign_neg_iff, ← hsign, Int.sign_neg_iff]
        have hx := value_neg_iff.2 hx
        have hy := value_neg_iff.2 hy
        rw [decide_eq_true_iff, magnitude_lt_iff hy.ne hx.ne (Ne.symm hmag), abs_of_neg hx,
          abs_of_neg hy, neg_lt_neg_iff]
    · have hpos : (0 : ℝ) < 2 ^ min x.exponent y.exponent := zpow_pos two_pos _
      rw [decide_eq_true_iff, ← mantissaAt_mul (min_le_left x.exponent y.exponent),
        ← mantissaAt_mul (min_le_right x.exponent y.exponent), mul_lt_mul_iff_of_pos_right hpos,
        Int.cast_lt]

theorem le_iff : le x y = true ↔ x.value ≤ y.value := by
  rw [le, Bool.not_eq_true', ← Bool.not_eq_true, lt_iff, not_lt]

theorem value_minimum (x y : BigFloat) : (minimum x y).value = min x.value y.value := by
  unfold minimum
  split
  · rename_i h
    rw [min_eq_right (lt_iff.1 h).le]
  · rename_i h
    rw [min_eq_left (not_lt.1 (mt lt_iff.2 h))]

theorem value_maximum (x y : BigFloat) : (maximum x y).value = max x.value y.value := by
  unfold maximum
  split
  · rename_i h
    rw [max_eq_right (lt_iff.1 h).le]
  · rename_i h
    rw [max_eq_left (not_lt.1 (mt lt_iff.2 h))]

/-! Integers. -/

theorem value_of_exponent_nonneg (h : 0 ≤ x.exponent) : x.value = x.mantissaAt 0 := by
  rw [← mantissaAt_mul h, zpow_zero, mul_one]

theorem le_ceil (x : BigFloat) : x.value ≤ x.ceil := by
  unfold ceil
  split
  · rename_i h
    exact (value_of_exponent_nonneg h).le
  · rename_i h
    have hexp : x.exponent = -(x.exponent.natAbs : ℤ) := by omega
    have hpos : (0 : ℤ) < 2 ^ x.exponent.natAbs := pow_pos two_pos _
    have hfloor : (-x.mantissa) / 2 ^ x.exponent.natAbs * 2 ^ x.exponent.natAbs ≤ -x.mantissa :=
      Int.ediv_mul_le _ hpos.ne'
    have hreal : (((-x.mantissa) / 2 ^ x.exponent.natAbs : ℤ) : ℝ) * 2 ^ x.exponent.natAbs ≤
        -x.mantissa := by exact_mod_cast hfloor
    rw [Int.shiftRight_eq_div_pow, value, hexp, zpow_neg, zpow_natCast, Int.natAbs_neg,
      Int.natAbs_natCast, ← div_eq_mul_inv, div_le_iff₀ (pow_pos two_pos _)]
    push_cast at hreal ⊢
    linarith

end BigFloat

end Reckoner
