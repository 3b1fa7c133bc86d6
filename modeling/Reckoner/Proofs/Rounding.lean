import Mathlib.Algebra.Order.Field.Power
import Mathlib.Data.Nat.Sqrt
import Mathlib.Analysis.Real.Sqrt
import Reckoner.Proofs.BinaryValue
/-!
The accuracy of rounded operations. Every one is the exact result to the bits asked for
(`BigFloat.Near`). Where an operation does not know all digits of its result, the mantissa that it rounds
is odd and no further from the result than a unit, and so far below the bits that are kept that no
rounding is spoiled (`near_round_of_odd`).
-/
namespace Reckoner

/-- A quotient that goes up only where half a unit or more remains, and stays only where no more does, is
off by half a unit at most. -/
theorem two_mul_abs_ite_mul_sub_le {n d q r : ℕ} (hsplit : q * d + r = n) (hr : r < d) (up : Prop)
    [Decidable up] (hup : up → d ≤ 2 * r) (hstay : ¬ up → 2 * r ≤ d) :
    2 * |((if up then q + 1 else q : ℕ) * d : ℤ) - n| ≤ d := by
  generalize hm : (if up then q + 1 else q) = m
  have herror : 2 * n ≤ 2 * (m * d) + d ∧ 2 * (m * d) ≤ 2 * n + d := by
    rw [← hm]
    split
    · rename_i h
      have := hup h
      rw [Nat.add_mul]
      omega
    · rename_i h
      have := hstay h
      omega
  zify at herror
  rw [abs_eq_max_neg]
  omega

/-- The nearest multiple of a power of two is off by half of it at most. -/
theorem two_mul_abs_shiftRoundEven_sub_le (n s : ℕ) :
    2 * |(shiftRoundEven n s * 2 ^ s : ℤ) - n| ≤ 2 ^ s := by
  have hsplit := Nat.div_add_mod' n (2 ^ s)
  have hrest : n - n / 2 ^ s * 2 ^ s = n % 2 ^ s := by omega
  simp only [shiftRoundEven, Nat.shiftLeft_eq, Nat.shiftRight_eq_div_pow, Nat.one_mul, hrest,
    Bool.or_eq_true, Bool.and_eq_true, decide_eq_true_eq]
  have herror := two_mul_abs_ite_mul_sub_le hsplit (Nat.mod_lt n (Nat.two_pow_pos s))
    (2 ^ s < 2 * (n % 2 ^ s) ∨ 2 * (n % 2 ^ s) = 2 ^ s ∧ n / 2 ^ s % 2 = 1) (by omega) (by omega)
  push_cast at herror ⊢
  exact herror

/-- An odd number is not half way between two multiples. -/
theorem two_mul_abs_shiftRoundEven_sub_lt {n s : ℕ} (hn : n % 2 = 1) (hs : 2 ≤ s) :
    2 * |(shiftRoundEven n s * 2 ^ s : ℤ) - n| + 2 ≤ 2 ^ s := by
  have hle := two_mul_abs_shiftRoundEven_sub_le n s
  obtain ⟨t, rfl⟩ := Nat.exists_eq_add_of_le hs
  rw [pow_add, show (2 : ℤ) ^ 2 = 4 by norm_num] at hle ⊢
  have heven : (shiftRoundEven n (2 + t) : ℤ) * (4 * 2 ^ t) =
      2 * (shiftRoundEven n (2 + t) * (2 * 2 ^ t)) := by ring
  rw [heven, abs_eq_max_neg] at hle ⊢
  omega

theorem abs_intCast_of_natAbs_eq_one {σ : ℤ} (hσ : σ.natAbs = 1) : |(σ : ℝ)| = 1 := by
  rw [← Int.cast_abs, Int.abs_eq_natAbs, hσ, Nat.cast_one, Int.cast_one]

namespace BigFloat

variable {bits : ℕ} {x y : BigFloat} {z : ℝ}

theorem abs_sign_le_one (x : BigFloat) : |(x.mantissa.sign : ℝ)| ≤ 1 := by
  rcases Int.sign_trichotomy x.mantissa with h | h | h <;> norm_num [h]

theorem near_self (bits : ℕ) (x : BigFloat) : Near bits x x.value := by
  rw [Near, sub_self, abs_zero]
  positivity

theorem near_zero (bits : ℕ) (e : ℤ) : Near bits ⟨0, e⟩ 0 := by
  simp [Near, value_mk]

theorem round_of_bitLength_le (h : bitLength x.mantissa.natAbs ≤ bits) : round bits x = x := by
  rw [round]
  exact if_pos h

/-- What rounding changes, in units of the mantissa. -/
theorem abs_value_round_sub (h : bits < bitLength x.mantissa.natAbs) :
    |(round bits x).value - x.value| =
      |(shiftRoundEven x.mantissa.natAbs (bitLength x.mantissa.natAbs - bits) *
        2 ^ (bitLength x.mantissa.natAbs - bits) : ℤ) - x.mantissa.natAbs| *
          (2 : ℝ) ^ x.exponent := by
  have hm : x.mantissa ≠ 0 := by
    intro hm
    rw [hm] at h
    exact absurd h (Nat.not_lt_zero _)
  have hsign := abs_intCast_of_natAbs_eq_one (Int.natAbs_sign_of_ne_zero hm)
  have hround : round bits x = ⟨x.mantissa.sign *
      shiftRoundEven x.mantissa.natAbs (bitLength x.mantissa.natAbs - bits),
        x.exponent + ((bitLength x.mantissa.natAbs - bits : ℕ) : ℤ)⟩ := by
    rw [round]
    exact if_neg (Nat.not_le.2 h)
  rw [hround, value_mk, value_eq_sign_mul x]
  generalize bitLength x.mantissa.natAbs - bits = s
  generalize x.mantissa.natAbs = n
  rw [zpow_add₀ two_ne_zero, zpow_natCast]
  push_cast
  rw [show ∀ a b c d e : ℝ, a * b * (c * d) - a * e * c = a * ((b * d - e) * c) by intros; ring,
    abs_mul, hsign, one_mul, abs_mul, abs_of_pos (zpow_pos (two_pos (α := ℝ)) _)]

/-- A rounded number serves as well for one that is `d` units away, if there is as much room between
the error of rounding and what is allowed, and between the mantissa and the least of its length. -/
theorem near_round_of_close {d : ℕ} (h : bits < bitLength x.mantissa.natAbs)
    (herror : 2 * |(shiftRoundEven x.mantissa.natAbs (bitLength x.mantissa.natAbs - bits) *
      2 ^ (bitLength x.mantissa.natAbs - bits) : ℤ) - x.mantissa.natAbs| + 2 * d ≤
        2 ^ (bitLength x.mantissa.natAbs - bits))
    (hsize : 2 ^ (bitLength x.mantissa.natAbs - 1) + d ≤ x.mantissa.natAbs)
    (hz : |x.value - z| ≤ d * 2 ^ x.exponent) : Near bits (round bits x) z := by
  obtain ⟨s, hs⟩ : ∃ s, bitLength x.mantissa.natAbs = bits + (s + 1) :=
    ⟨bitLength x.mantissa.natAbs - bits - 1, by omega⟩
  have hround := abs_value_round_sub h
  rw [hs, Nat.add_sub_cancel_left] at hround herror
  rw [hs, ← Nat.add_assoc, Nat.add_sub_cancel] at hsize
  generalize |(shiftRoundEven x.mantissa.natAbs (s + 1) * 2 ^ (s + 1) : ℤ) -
    x.mantissa.natAbs| = k at hround herror
  have hunit : (0 : ℝ) < 2 ^ x.exponent := zpow_pos two_pos _
  have hkd : (k + d : ℝ) ≤ 2 ^ s := by
    rw [pow_succ] at herror
    exact_mod_cast (by omega : k + d ≤ 2 ^ s)
  have hleast : (2 : ℝ) ^ (bits + s) + d ≤ x.mantissa.natAbs := by exact_mod_cast hsize
  have hlow : 2 ^ (bits + s) * (2 : ℝ) ^ x.exponent ≤ |z| :=
    calc 2 ^ (bits + s) * (2 : ℝ) ^ x.exponent
        ≤ (x.mantissa.natAbs - d) * (2 : ℝ) ^ x.exponent :=
          mul_le_mul_of_nonneg_right (by linarith) hunit.le
      _ = |x.value| - d * (2 : ℝ) ^ x.exponent := by rw [abs_value, sub_mul]
      _ ≤ |x.value| - |x.value - z| := by linarith
      _ ≤ |z| := by linarith [abs_sub_abs_le_abs_sub x.value z]
  calc |(round bits x).value - z|
      ≤ |(round bits x).value - x.value| + |x.value - z| := abs_sub_le _ _ _
    _ ≤ (k + d) * 2 ^ x.exponent := by linarith
    _ ≤ 2 ^ s * 2 ^ x.exponent := mul_le_mul_of_nonneg_right hkd hunit.le
    _ = 2 ^ (bits + s) * (2 : ℝ) ^ x.exponent * 2 ^ (-(bits : ℤ)) := by
      rw [zpow_neg, zpow_natCast, pow_add]
      field_simp
    _ ≤ |z| * 2 ^ (-(bits : ℤ)) := mul_le_mul_of_nonneg_right hlow (zpow_pos two_pos _).le

theorem near_round (bits : ℕ) (x : BigFloat) : Near bits (round bits x) x.value := by
  rcases Nat.lt_or_ge bits (bitLength x.mantissa.natAbs) with h | h
  · have hn : x.mantissa.natAbs ≠ 0 := by
      intro hn
      rw [hn] at h
      exact absurd h (Nat.not_lt_zero _)
    have herror := two_mul_abs_shiftRoundEven_sub_le x.mantissa.natAbs
      (bitLength x.mantissa.natAbs - bits)
    exact near_round_of_close (d := 0) h (by simpa using herror) (two_pow_le_of_bitLength hn)
      (by simp)
  · rw [round_of_bitLength_le h]
    exact near_self bits x

/-- An odd mantissa with two bits more than are kept stands for all numbers within a unit of it. -/
theorem near_round_of_odd (hodd : x.mantissa.natAbs % 2 = 1)
    (hlong : bits + 2 ≤ bitLength x.mantissa.natAbs) (hz : |x.value - z| ≤ 2 ^ x.exponent) :
    Near bits (round bits x) z := by
  have hn : x.mantissa.natAbs ≠ 0 := by omega
  refine near_round_of_close (d := 1) (by omega)
    (two_mul_abs_shiftRoundEven_sub_lt hodd (by omega)) ?_ (by simpa using hz)
  have hleast := two_pow_le_of_bitLength hn
  obtain ⟨t, ht⟩ : ∃ t, bitLength x.mantissa.natAbs - 1 = t + 1 :=
    ⟨bitLength x.mantissa.natAbs - 2, by omega⟩
  rw [ht, pow_succ] at hleast ⊢
  omega

theorem near_mul (bits : ℕ) (x y : BigFloat) : Near bits (mul bits x y) (x.value * y.value) := by
  rw [← value_mulExact]
  exact near_round bits _

/-- A whole part of enough bits, followed by a bit that says whether anything was cut off, is rounded
as the number would be. -/
theorem near_round_sticky {σ : ℤ} (hσ : σ.natAbs = 1) {q : ℕ} (hq : 2 ^ bits ≤ q) (p : Prop)
    [Decidable p] {t : ℝ} (he : p → t = q) (hi : ¬ p → q ≤ t ∧ t ≤ q + 1) (e : ℤ) :
    Near bits (round bits ⟨σ * ((2 * q + (if p then 0 else 1) : ℕ) : ℤ), e - 1⟩)
      (σ * t * 2 ^ e) := by
  have hscale : (2 : ℝ) ^ e = 2 * 2 ^ (e - 1) := by
    rw [zpow_sub_one₀ two_ne_zero]
    field_simp
  split_ifs with h
  · have hvalue : σ * t * 2 ^ e =
        (⟨σ * ((2 * q + 0 : ℕ) : ℤ), e - 1⟩ : BigFloat).value := by
      rw [value_mk, he h, hscale]
      push_cast
      ring
    rw [hvalue]
    exact near_round bits _
  · obtain ⟨hlow, hhigh⟩ := hi h
    have hnat : (σ * ((2 * q + 1 : ℕ) : ℤ)).natAbs = 2 * q + 1 := by
      rw [Int.natAbs_mul, hσ, Nat.one_mul, Int.natAbs_natCast]
    refine near_round_of_odd (by rw [hnat]; omega) ?_ ?_
    · rw [hnat]
      exact lt_bitLength (k := bits + 1) (by rw [pow_succ]; omega)
    · rw [value_mk, hscale]
      push_cast
      rw [show ∀ a b c d : ℝ, a * (2 * b + 1) * d - a * c * (2 * d) = a * ((2 * b + 1 - 2 * c) * d)
        by intros; ring, abs_mul, abs_intCast_of_natAbs_eq_one hσ, one_mul, abs_mul,
        abs_of_pos (zpow_pos (two_pos (α := ℝ)) _)]
      refine mul_le_of_le_one_left (zpow_pos two_pos _).le (abs_le.2 ⟨?_, ?_⟩) <;> linarith

theorem near_quotient {σ : ℤ} (hσ : σ.natAbs = 1) {n d shift : ℕ} (hn : n ≠ 0) (hd : d ≠ 0)
    (hshift : bits + 2 + bitLength d - bitLength n ≤ shift) (e : ℤ) :
    Near bits (round bits ⟨σ * ((2 * (n * 2 ^ shift / d) +
      (if n * 2 ^ shift % d = 0 then 0 else 1) : ℕ) : ℤ), e - shift - 1⟩)
      (σ * (n / d) * 2 ^ e) := by
  have hlong : 2 ^ bits ≤ n * 2 ^ shift / d := by
    rw [Nat.le_div_iff_mul_le (Nat.pos_of_ne_zero hd)]
    calc 2 ^ bits * d ≤ 2 ^ bits * 2 ^ bitLength d :=
          Nat.mul_le_mul_left _ (lt_two_pow_bitLength d).le
      _ = 2 ^ (bits + bitLength d) := (pow_add _ _ _).symm
      _ ≤ 2 ^ (bitLength n - 1 + shift) := Nat.pow_le_pow_right two_pos (by omega)
      _ = 2 ^ (bitLength n - 1) * 2 ^ shift := pow_add _ _ _
      _ ≤ n * 2 ^ shift := Nat.mul_le_mul_right _ (two_pow_le_of_bitLength hn)
  have hd' : (0 : ℝ) < d := by exact_mod_cast Nat.pos_of_ne_zero hd
  have hsplit : (n * 2 ^ shift : ℝ) =
      d * (n * 2 ^ shift / d : ℕ) + (n * 2 ^ shift % d : ℕ) := by
    exact_mod_cast (Nat.div_add_mod (n * 2 ^ shift) d).symm
  have hrest : ((n * 2 ^ shift % d : ℕ) : ℝ) ≤ d := by
    exact_mod_cast (Nat.mod_lt _ (Nat.pos_of_ne_zero hd)).le
  have hscale : σ * (n / d : ℝ) * 2 ^ e = σ * (n * 2 ^ shift / d) * 2 ^ (e - shift) := by
    rw [zpow_sub₀ two_ne_zero, zpow_natCast]
    field_simp
  rw [hscale]
  refine near_round_sticky hσ hlong _ (fun h => ?_) (fun _ => ⟨?_, ?_⟩) _
  · rw [div_eq_iff hd'.ne', hsplit, h, Nat.cast_zero, add_zero, mul_comm]
  · rw [le_div_iff₀ hd', hsplit, mul_comm]
    exact le_add_of_nonneg_right (Nat.cast_nonneg _)
  · rw [div_le_iff₀ hd', hsplit]
    linarith

theorem near_div (bits : ℕ) (x : BigFloat) (hy : y.value ≠ 0) :
    Near bits (div bits x y) (x.value / y.value) := by
  unfold div
  split
  · rename_i hx
    rw [isZero_iff.1 hx, zero_div]
    exact near_zero bits 0
  · rename_i hx
    have hx : x.mantissa ≠ 0 := fun h => hx (isZero_iff.2 (value_eq_zero_iff.2 h))
    have hy : y.mantissa ≠ 0 := mt value_eq_zero_iff.2 hy
    have hσ : (x.mantissa.sign * y.mantissa.sign).natAbs = 1 := by
      rw [Int.natAbs_mul, Int.natAbs_sign_of_ne_zero hx, Int.natAbs_sign_of_ne_zero hy]
    have hsign : (y.mantissa.sign : ℝ)⁻¹ = y.mantissa.sign := by
      rcases lt_or_gt_of_ne hy with hy | hy
      · rw [Int.sign_eq_neg_one_of_neg hy]
        norm_num
      · rw [Int.sign_eq_one_of_pos hy]
        norm_num
    have hquotient : x.value / y.value = (x.mantissa.sign * y.mantissa.sign : ℤ) *
        (x.mantissa.natAbs / y.mantissa.natAbs) * (2 : ℝ) ^ (x.exponent - y.exponent) := by
      rw [value_eq_sign_mul x, value_eq_sign_mul y, zpow_sub₀ two_ne_zero, Int.cast_mul,
        div_eq_mul_inv, mul_inv, mul_inv, hsign]
      ring
    rw [hquotient]
    simp only [Nat.shiftLeft_eq]
    exact near_quotient hσ (Int.natAbs_ne_zero.2 hx) (Int.natAbs_ne_zero.2 hy) (le_refl _) _

/-- The whole part of a root of enough bits. -/
theorem near_root {n shift : ℕ} (hn : n ≠ 0) (hshift : bits + 2 - bitLength n / 2 ≤ shift) (e : ℤ) :
    Near bits (round bits ⟨((2 * (n * 2 ^ (2 * shift)).sqrt +
      (if (n * 2 ^ (2 * shift)).sqrt * (n * 2 ^ (2 * shift)).sqrt = n * 2 ^ (2 * shift)
        then 0 else 1) : ℕ) : ℤ), e - shift - 1⟩) (√n * 2 ^ e) := by
  have hlong : 2 ^ bits ≤ (n * 2 ^ (2 * shift)).sqrt := by
    rw [Nat.le_sqrt, ← pow_add]
    calc 2 ^ (bits + bits) ≤ 2 ^ (bitLength n - 1 + 2 * shift) :=
          Nat.pow_le_pow_right two_pos (by omega)
      _ = 2 ^ (bitLength n - 1) * 2 ^ (2 * shift) := pow_add _ _ _
      _ ≤ n * 2 ^ (2 * shift) := Nat.mul_le_mul_right _ (two_pow_le_of_bitLength hn)
  have hroot : √((n * 2 ^ (2 * shift) : ℕ) : ℝ) = √n * 2 ^ shift := by
    rw [Nat.cast_mul, Nat.cast_pow, Nat.cast_two, Real.sqrt_mul (Nat.cast_nonneg _), mul_comm 2,
      pow_mul, Real.sqrt_sq (by positivity)]
  have hscale : √n * 2 ^ e = ((1 : ℤ) : ℝ) * √((n * 2 ^ (2 * shift) : ℕ) : ℝ) * 2 ^ (e - shift) := by
    rw [hroot, zpow_sub₀ two_ne_zero, zpow_natCast, Int.cast_one]
    field_simp
  rw [hscale, ← Int.one_mul (Nat.cast _)]
  generalize n * 2 ^ (2 * shift) = m at *
  refine near_round_sticky rfl hlong _ (fun h => ?_) (fun _ => ⟨?_, ?_⟩) _
  · conv_lhs => rw [← h, Nat.cast_mul, Real.sqrt_mul_self (Nat.cast_nonneg _)]
  · exact Real.nat_sqrt_le_real_sqrt
  · exact Real.real_sqrt_le_nat_sqrt_succ

/-- An even power of two comes out of a root. -/
theorem sqrt_value (hx : 0 < x.mantissa) :
    √x.value = √((x.mantissa.natAbs <<< (x.exponent % 2).toNat : ℕ) : ℝ) *
      2 ^ ((x.exponent - x.exponent % 2) / 2) := by
  have hexp : x.exponent =
      (x.exponent % 2).toNat + 2 * ((x.exponent - x.exponent % 2) / 2) := by omega
  have hvalue : x.value = ((x.mantissa.natAbs <<< (x.exponent % 2).toNat : ℕ) : ℝ) *
      (2 ^ ((x.exponent - x.exponent % 2) / 2)) ^ 2 := by
    rw [← abs_of_pos (value_pos_iff.2 hx), abs_value, Nat.shiftLeft_eq, Nat.cast_mul, Nat.cast_pow,
      Nat.cast_two, mul_assoc, ← zpow_natCast, ← zpow_natCast, ← zpow_mul, ← zpow_add₀ two_ne_zero]
    congr 2
    push_cast
    omega
  rw [hvalue, Real.sqrt_mul (Nat.cast_nonneg _), Real.sqrt_sq (zpow_pos two_pos _).le]

theorem near_sqrt (bits : ℕ) (x : BigFloat) : Near bits (sqrt bits x) √x.value := by
  unfold sqrt
  split
  · rename_i hx
    have hx : x.value ≤ 0 := not_lt.1 (mt value_pos_iff.1 (not_lt.2 hx))
    rw [Real.sqrt_eq_zero_of_nonpos hx]
    exact near_zero bits 0
  · rename_i hx
    have hx := not_le.1 hx
    have hn : x.mantissa.natAbs <<< (x.exponent % 2).toNat ≠ 0 := by
      rw [Nat.shiftLeft_eq]
      exact Nat.mul_ne_zero (Int.natAbs_ne_zero.2 hx.ne') (Nat.two_pow_pos _).ne'
    rw [sqrt_value hx]
    dsimp only
    generalize x.mantissa.natAbs <<< (x.exponent % 2).toNat = n at *
    generalize (x.exponent - x.exponent % 2) / 2 = half
    split
    · rename_i hsquare
      have hvalue : √(n : ℝ) * 2 ^ half = (⟨n.sqrt, half⟩ : BigFloat).value := by
        conv_lhs => rw [← hsquare, Nat.cast_mul, Real.sqrt_mul_self (Nat.cast_nonneg _)]
        rw [value_mk, Int.cast_natCast]
      rw [hvalue]
      exact near_round bits _
    · simp only [Nat.shiftLeft_eq]
      exact near_root hn (le_refl _) half

theorem addExact_comm (hx : x.mantissa ≠ 0) (hy : y.mantissa ≠ 0) :
    x.addExact y = y.addExact x := by
  simp only [addExact, isZero, hx, hy, decide_false, Bool.false_eq_true, if_false, min_comm,
    Int.add_comm]

/-- A unit with the sign of a number is no further from it than a unit, if the number is no larger. -/
theorem abs_sign_mul_sub_le {u : ℝ} (h : |y.value| ≤ u) :
    |y.mantissa.sign * u - y.value| ≤ u := by
  have hsign : |(y.mantissa.sign : ℝ)| ≤ 1 := abs_sign_le_one y
  have hvalue : y.value = y.mantissa.sign * |y.value| := by
    rw [abs_value, value_eq_sign_mul, mul_assoc]
  have hrest : 0 ≤ u - |y.value| := sub_nonneg.2 h
  calc |y.mantissa.sign * u - y.value|
      = |(y.mantissa.sign : ℝ)| * (u - |y.value|) := by
        conv_lhs => rw [hvalue, ← mul_sub, abs_mul, abs_of_nonneg hrest]
    _ ≤ 1 * (u - |y.value|) := mul_le_mul_of_nonneg_right hsign hrest
    _ ≤ u := by linarith [abs_nonneg y.value]

/-- Of a number that lies beyond all bits that rounding looks at only the sign matters. -/
theorem near_round_addExact_sign {last : ℤ} (hx : x.mantissa ≠ 0) (hy : y.mantissa ≠ 0)
    (hexp : last < x.exponent) (hmag : last + 2 + bits < x.magnitude) (hlast : y.magnitude < last) :
    Near bits (round bits (x.addExact ⟨y.mantissa.sign, last⟩)) (x.value + y.value) := by
  have hσ := Int.natAbs_sign_of_ne_zero hy
  have hsign : y.mantissa.sign ≠ 0 := Int.natAbs_ne_zero.1 (by omega)
  obtain ⟨k, hk⟩ : ∃ k : ℕ, x.exponent = last + (k + 1 : ℕ) :=
    ⟨(x.exponent - last).toNat - 1, by omega⟩
  have hsum : x.addExact ⟨y.mantissa.sign, last⟩ =
      ⟨x.mantissa * 2 ^ (k + 1) + y.mantissa.sign, last⟩ := by
    have hshift : (x.exponent - last).toNat = k + 1 := by omega
    rw [addExact, isZero, if_neg (by simpa using hx), isZero, if_neg (by simpa using hsign)]
    simp only [min_eq_right hexp.le, mantissaAt, hshift, sub_self, Int.toNat_zero, Nat.one_shiftLeft]
    push_cast
    rw [mul_one]
  have hodd : (x.mantissa * 2 ^ (k + 1) + y.mantissa.sign).natAbs % 2 = 1 := by
    rw [pow_succ, ← mul_assoc]
    omega
  have hleast : 2 ^ (bits + 2) ≤ (x.mantissa * 2 ^ (k + 1)).natAbs := by
    have hn := Int.natAbs_ne_zero.2 hx
    rw [magnitude_of_ne_zero hx] at hmag
    rw [Int.natAbs_mul, Int.natAbs_pow]
    calc 2 ^ (bits + 2) ≤ 2 ^ (bitLength x.mantissa.natAbs - 1 + (k + 1)) :=
          Nat.pow_le_pow_right two_pos (by omega)
      _ = 2 ^ (bitLength x.mantissa.natAbs - 1) * 2 ^ (k + 1) := pow_add _ _ _
      _ ≤ x.mantissa.natAbs * 2 ^ (k + 1) :=
          Nat.mul_le_mul_right _ (two_pow_le_of_bitLength hn)
  rw [hsum]
  refine near_round_of_odd hodd (lt_bitLength (k := bits + 1) ?_) ?_
  · have hpos := Nat.two_pow_pos (bits + 1)
    rw [pow_succ] at hleast
    change 2 ^ (bits + 1) ≤ (x.mantissa * 2 ^ (k + 1) + y.mantissa.sign).natAbs
    omega
  · have hunit : (0 : ℝ) < 2 ^ last := zpow_pos two_pos _
    have hsmall : |y.value| ≤ 2 ^ last :=
      (abs_value_lt y).le.trans (zpow_le_zpow_right₀ one_le_two hlast.le)
    have hvalue : (⟨x.mantissa * 2 ^ (k + 1) + y.mantissa.sign, last⟩ : BigFloat).value =
        x.value + y.mantissa.sign * 2 ^ last := by
      rw [value_mk, value, hk, zpow_add₀ two_ne_zero, zpow_natCast]
      push_cast
      ring
    rw [hvalue, add_sub_add_left_eq_sub]
    exact abs_sign_mul_sub_le hsmall

theorem negligible_eq (bits : ℕ) (x y : BigFloat) :
    negligible bits x y = y ∨
      x.mantissa ≠ 0 ∧ y.mantissa ≠ 0 ∧ y.magnitude < min x.exponent (x.magnitude - bits) - 4 ∧
        negligible bits x y = ⟨y.mantissa.sign, min x.exponent (x.magnitude - bits) - 4⟩ := by
  unfold negligible
  dsimp only
  split
  · rename_i h
    simp only [isZero, Bool.and_eq_true, Bool.not_eq_true', decide_eq_false_iff_not,
      decide_eq_true_eq] at h
    exact .inr ⟨h.1.1, h.1.2, h.2, rfl⟩
  · exact .inl rfl

theorem near_add (bits : ℕ) (x y : BigFloat) : Near bits (add bits x y) (x.value + y.value) := by
  unfold add
  rcases negligible_eq bits x y with hy | ⟨hx₀, hy₀, hlast, hy⟩
  · rcases negligible_eq bits y x with hx | ⟨hy₀, hx₀, hlast, hx⟩
    · rw [hx, hy, ← value_addExact]
      exact near_round bits _
    · have hsign : x.mantissa.sign ≠ 0 := mt Int.sign_eq_zero_iff_zero.1 hx₀
      rw [hx, hy, addExact_comm hsign hy₀, add_comm]
      exact near_round_addExact_sign hy₀ hx₀ (by omega) (by omega) hlast
  · rcases negligible_eq bits y x with hx | ⟨-, -, hlast', -⟩
    · rw [hx, hy]
      exact near_round_addExact_sign hx₀ hy₀ (by omega) (by omega) hlast
    · omega

theorem near_sub (bits : ℕ) (x y : BigFloat) : Near bits (sub bits x y) (x.value - y.value) := by
  rw [sub_eq_add_neg, ← value_neg]
  exact near_add bits x y.neg

/-! The nearest integer. -/

theorem abs_sub_nearestInt_le (x : BigFloat) : |x.value - x.nearestInt| ≤ 1 / 2 := by
  unfold nearestInt
  split
  · rename_i h
    rw [value_of_exponent_nonneg h, sub_self, abs_zero]
    norm_num
  · rename_i h
    split
    · rename_i hmag
      rw [Int.cast_zero, sub_zero]
      calc |x.value| ≤ 2 ^ x.magnitude := (abs_value_lt x).le
        _ ≤ 2 ^ (-1 : ℤ) := zpow_le_zpow_right₀ one_le_two (by omega)
        _ = 1 / 2 := by norm_num
    · have hexp : x.exponent = -(x.exponent.natAbs : ℤ) := by omega
      have hsign := abs_sign_le_one x
      have herror : 2 * |(shiftRoundEven x.mantissa.natAbs x.exponent.natAbs *
          2 ^ x.exponent.natAbs : ℝ) - x.mantissa.natAbs| ≤ 2 ^ x.exponent.natAbs := by
        exact_mod_cast two_mul_abs_shiftRoundEven_sub_le x.mantissa.natAbs x.exponent.natAbs
      have hpos : (0 : ℝ) < 2 ^ x.exponent.natAbs := by positivity
      rw [value_eq_sign_mul x]
      rw [hexp, zpow_neg, zpow_natCast, Int.natAbs_neg, Int.natAbs_natCast, Int.cast_mul,
        Int.cast_natCast]
      generalize shiftRoundEven x.mantissa.natAbs x.exponent.natAbs = k at *
      generalize x.exponent.natAbs = s at *
      generalize (x.mantissa.natAbs : ℝ) = n at *
      calc |x.mantissa.sign * n * (2 ^ s)⁻¹ - x.mantissa.sign * k|
          = |(x.mantissa.sign : ℝ)| * (|(k * 2 ^ s : ℝ) - n| / 2 ^ s) := by
            rw [abs_sub_comm, ← abs_of_pos hpos, ← abs_div, ← abs_mul, abs_of_pos hpos]
            congr 1
            field_simp
        _ ≤ 1 * (1 / 2) := by
            refine mul_le_mul hsign ?_ (by positivity) zero_le_one
            rw [div_le_iff₀ hpos]
            linarith
        _ = 1 / 2 := one_mul _

end BigFloat

end Reckoner
