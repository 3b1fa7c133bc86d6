import Mathlib.Tactic.IntervalCases
import Reckoner.Proofs.Answers
import Reckoner.Proofs.ErrorBounds
import Reckoner.Proofs.NodeValue
import Reckoner.Proofs.Rounding
import Reckoner.Reals.Approximation
/-!
Approximations are as good as they say. Half of what a node may be off goes to its operands, whose
errors the operation magnifies, and a quarter to rounding; so each node keeps its promise if its operands
do (`keeps_approximateOp`), and with it every run (`approximate_within`).
-/
namespace Reckoner

open BigFloat (Near)

/-- Every function is its mathematical one to the bits asked for, where that is defined. -/
structure Kernel.Accurate (kernel : Kernel) : Prop where
  pi : ∀ bits, Near bits (kernel.pi bits) Real.pi
  e : ∀ bits, Near bits (kernel.e bits) (Real.exp 1)
  exp : ∀ bits x, Near bits (kernel.exp bits x) (Real.exp x.value)
  ln : ∀ bits x, 0 < x.value → Near bits (kernel.ln bits x) (Real.log x.value)
  sin : ∀ bits x, Near bits (kernel.sin bits x) (Real.sin x.value)
  cos : ∀ bits x, Near bits (kernel.cos bits x) (Real.cos x.value)
  arcsin : ∀ bits x, -1 ≤ x.value ∧ x.value ≤ 1 →
    Near bits (kernel.arcsin bits x) (Real.arcsin x.value)
  arccos : ∀ bits x, -1 ≤ x.value ∧ x.value ≤ 1 →
    Near bits (kernel.arccos bits x) (Real.arccos x.value)
  arctan : ∀ bits x, Near bits (kernel.arctan bits x) (Real.arctan x.value)

theorem BigFloat.near_ofReal (bits : ℕ) (z : ℝ) : Near bits (ofReal bits z) z := by
  by_cases hz : z = 0
  · rw [hz, ofReal, zero_mul, Int.floor_zero]
    exact near_zero bits _
  · have hlog : (2 : ℝ) ^ Int.log 2 |z| ≤ |z| := Int.zpow_log_le_self one_lt_two (abs_pos.2 hz)
    rw [Near, ofReal, value_mk]
    generalize Int.log 2 |z| = k at *
    have hfloor : |(⌊z * 2 ^ (bits - k)⌋ : ℝ) - z * 2 ^ (bits - k)| ≤ 1 := by
      rw [abs_le]
      constructor <;> linarith [Int.floor_le (z * 2 ^ (bits - k)),
        Int.lt_floor_add_one (z * 2 ^ (bits - k))]
    have hscale : ⌊z * 2 ^ (bits - k)⌋ * 2 ^ (k - bits) - z =
        ((⌊z * 2 ^ (bits - k)⌋ : ℝ) - z * 2 ^ (bits - k)) * 2 ^ (k - bits) := by
      rw [sub_mul, mul_assoc z, Reals.two_zpow_mul, sub_add_sub_cancel, sub_self, zpow_zero, mul_one]
    calc |⌊z * 2 ^ (bits - k)⌋ * 2 ^ (k - bits) - z|
        = |(⌊z * 2 ^ (bits - k)⌋ : ℝ) - z * 2 ^ (bits - k)| * 2 ^ (k - bits) := by
          rw [hscale, abs_mul, abs_of_pos (Reals.two_zpow_pos _)]
      _ ≤ 2 ^ (k - bits) := mul_le_of_le_one_left (Reals.two_zpow_pos _).le hfloor
      _ = 2 ^ k * 2 ^ (-(bits : ℤ)) := by rw [Reals.two_zpow_mul, sub_eq_add_neg]
      _ ≤ |z| * 2 ^ (-(bits : ℤ)) := mul_le_mul_of_nonneg_right hlog (Reals.two_zpow_pos _).le

/-- The kernel that rounds the exact number of every function. -/
noncomputable def Kernel.ideal : Kernel where
  pi bits := .ofReal bits Real.pi
  e bits := .ofReal bits (Real.exp 1)
  exp bits x := .ofReal bits (Real.exp x.value)
  ln bits x := .ofReal bits (Real.log x.value)
  sin bits x := .ofReal bits (Real.sin x.value)
  cos bits x := .ofReal bits (Real.cos x.value)
  arcsin bits x := .ofReal bits (Real.arcsin x.value)
  arccos bits x := .ofReal bits (Real.arccos x.value)
  arctan bits x := .ofReal bits (Real.arctan x.value)

theorem Kernel.ideal_accurate : Kernel.ideal.Accurate where
  pi bits := BigFloat.near_ofReal bits _
  e bits := BigFloat.near_ofReal bits _
  exp bits _ := BigFloat.near_ofReal bits _
  ln bits _ _ := BigFloat.near_ofReal bits _
  sin bits _ := BigFloat.near_ofReal bits _
  cos bits _ := BigFloat.near_ofReal bits _
  arcsin bits _ _ := BigFloat.near_ofReal bits _
  arccos bits _ _ := BigFloat.near_ofReal bits _
  arctan bits _ := BigFloat.near_ofReal bits _

namespace Reals

variable {p : ℤ} {x y v : BigFloat} {a b z : ℝ}

/-- The bits found by `bitsFor` leave a quarter of what is allowed. -/
theorem within_of_near {magnitude : ℤ} (h : Near (bitsFor p magnitude) v z)
    (hz : |z| ≤ 2 ^ magnitude) : Within (p + 2) v.value z :=
  calc |v.value - z| ≤ |z| * 2 ^ (-(bitsFor p magnitude : ℤ)) := h
    _ ≤ 2 ^ magnitude * 2 ^ (-(p + magnitude + 2)) := by
      refine mul_le_mul hz (two_zpow_le ?_) (two_zpow_pos _).le (two_zpow_pos _).le
      rw [bitsFor]
      omega
    _ = 2 ^ (-(p + 2)) := by
      rw [two_zpow_mul]
      congr 1
      ring

/-- Rounding and the operands' errors together. -/
theorem within_of_near_of_within {magnitude : ℤ} (h : Near (bitsFor p magnitude) v z)
    (hz : |z| ≤ 2 ^ magnitude) (hza : Within (p + 1) z a) : Within p v.value a :=
  ((within_of_near h hz).mono (by omega)).trans hza

theorem abs_le_two_zpow_add_one {k : ℤ} (ha : |a| ≤ 2 ^ k) (hb : |b| ≤ 2 ^ k) :
    |a| + |b| ≤ 2 ^ (k + 1) := by
  rw [← two_zpow_add_self]
  exact add_le_add ha hb

theorem abs_value_le {k : ℤ} (h : x.magnitude ≤ k) : |x.value| ≤ 2 ^ k :=
  (BigFloat.abs_value_lt x).le.trans (two_zpow_le h)

/-! Rational numbers. -/

theorem exists_factor {bits : ℕ} (h : Near bits x z) :
    ∃ δ : ℝ, |δ| ≤ 2 ^ (-(bits : ℤ)) ∧ x.value = z * (1 + δ) := by
  by_cases hz : z = 0
  · rw [Near, hz, abs_zero, zero_mul, sub_zero] at h
    exact ⟨0, by simp, by rw [hz, zero_mul, abs_nonpos_iff.1 h]⟩
  · refine ⟨(x.value - z) / z, ?_, ?_⟩
    · rw [abs_div, div_le_iff₀ (abs_pos.2 hz), mul_comm]
      exact h
    · field_simp
      ring

/-- Three roundings in a quotient. -/
theorem abs_quotient_sub_le {bits : ℕ} (hbits : 4 ≤ bits) (hx : Near bits x a) (hy : Near bits y b)
    (hv : Near bits v (x.value / y.value)) :
    |v.value - a / b| ≤ |a / b| * (4 * 2 ^ (-(bits : ℤ))) := by
  obtain ⟨δ, hδ, hx⟩ := exists_factor hx
  obtain ⟨η, hη, hy⟩ := exists_factor hy
  obtain ⟨ζ, hζ, hv⟩ := exists_factor hv
  have hsmall : (2 : ℝ) ^ (-(bits : ℤ)) ≤ 1 / 16 :=
    (two_zpow_le (by omega : -(bits : ℤ) ≤ -4)).trans (by norm_num)
  generalize (2 : ℝ) ^ (-(bits : ℤ)) = ε at *
  have hη' : (0 : ℝ) < 1 + η := by linarith [(abs_le.1 hη).1]
  have hquotient : v.value - a / b = a / b * ((δ + ζ + δ * ζ - η) / (1 + η)) := by
    rw [hv, hx, hy, mul_div_mul_comm]
    field_simp
    ring
  rw [hquotient, abs_mul]
  refine mul_le_mul_of_nonneg_left ?_ (abs_nonneg _)
  rw [abs_div, abs_of_pos hη', div_le_iff₀ hη']
  have hε : 0 ≤ ε := (abs_nonneg δ).trans hδ
  have hprod : |δ * ζ| ≤ ε * ε := by
    rw [abs_mul]
    exact mul_le_mul hδ hζ (abs_nonneg _) hε
  calc |δ + ζ + δ * ζ - η| ≤ |δ| + |ζ| + |δ * ζ| + |η| :=
        (abs_sub _ _).trans (add_le_add_left (abs_add_three _ _ _) _)
    _ ≤ ε + ε + ε * ε + ε := by linarith
    _ ≤ 4 * ε * (1 - ε) := by nlinarith
    _ ≤ 4 * ε * (1 + η) := by
      refine mul_le_mul_of_nonneg_left ?_ (by linarith)
      linarith [(abs_le.1 hη).1]

theorem abs_rat_le (q : ℚ) :
    |(q : ℝ)| ≤ 2 ^ ((bitLength q.num.natAbs : ℤ) - bitLength q.den + 1) := by
  have hden : (0 : ℝ) < q.den := by exact_mod_cast q.den_pos
  have hnum : (q.num.natAbs : ℝ) ≤ 2 ^ (bitLength q.num.natAbs : ℤ) := by
    rw [zpow_natCast]
    exact_mod_cast (lt_two_pow_bitLength q.num.natAbs).le
  have hlow : (2 : ℝ) ^ ((bitLength q.den : ℤ) - 1) ≤ q.den := by
    have hpos := bitLength_pos q.den_nz
    rw [show (bitLength q.den : ℤ) - 1 = (bitLength q.den - 1 : ℕ) by omega, zpow_natCast]
    exact_mod_cast two_pow_le_of_bitLength q.den_nz
  rw [Rat.cast_def, abs_div, abs_of_pos hden, div_le_iff₀ hden, ← Int.cast_abs,
    Int.abs_eq_natAbs, Int.cast_natCast]
  calc (q.num.natAbs : ℝ) ≤ 2 ^ (bitLength q.num.natAbs : ℤ) := hnum
    _ = 2 ^ ((bitLength q.num.natAbs : ℤ) - bitLength q.den + 1) *
        2 ^ ((bitLength q.den : ℤ) - 1) := by
      rw [two_zpow_mul]
      congr 1
      ring
    _ ≤ _ := mul_le_mul_of_nonneg_left hlow (two_zpow_pos _).le

theorem within_rational (q : ℚ) (p : ℤ) : Within p (approximateRational q p).value q := by
  unfold approximateRational
  split
  · rename_i hden
    rw [BigFloat.value_ofInt, Rat.cast_def, hden, Nat.cast_one, div_one]
    exact Within.refl p _
  · dsimp only
    generalize hm : (bitLength q.num.natAbs : ℤ) - bitLength q.den + 1 = magnitude
    have hbits : 4 ≤ bitsFor p magnitude + 2 := by
      rw [bitsFor]
      omega
    have hnum := BigFloat.near_round (bitsFor p magnitude + 2) (BigFloat.ofInt q.num)
    have hden := BigFloat.near_round (bitsFor p magnitude + 2) (BigFloat.ofInt q.den)
    rw [BigFloat.value_ofInt] at hnum hden
    have hne : (BigFloat.round (bitsFor p magnitude + 2) (BigFloat.ofInt q.den)).value ≠ 0 := by
      intro hzero
      rw [Near, hzero, zero_sub, abs_neg, Int.cast_natCast] at hden
      have hpos : (0 : ℝ) < |(q.den : ℝ)| := by simp [q.den_pos]
      have hlt := mul_lt_mul_of_pos_left
        (zpow_lt_zpow_right₀ one_lt_two (by omega : -((bitsFor p magnitude + 2 : ℕ) : ℤ) < 0) :
          (2 : ℝ) ^ (-((bitsFor p magnitude + 2 : ℕ) : ℤ)) < 2 ^ (0 : ℤ)) hpos
      rw [zpow_zero, mul_one] at hlt
      linarith
    have herror := abs_quotient_sub_le hbits hnum hden (BigFloat.near_div _ _ hne)
    have hq : (q : ℝ) = (q.num : ℝ) / ((q.den : ℤ) : ℝ) := by rw [Rat.cast_def, Int.cast_natCast]
    have habs := abs_rat_le q
    rw [hm] at habs
    rw [← hq] at herror
    refine le_trans herror ?_
    calc |(q : ℝ)| * (4 * 2 ^ (-((bitsFor p magnitude + 2 : ℕ) : ℤ)))
        ≤ 2 ^ magnitude * 2 ^ (-(p + magnitude)) := by
          refine mul_le_mul habs ?_ (mul_pos four_pos (two_zpow_pos _)).le (two_zpow_pos _).le
          rw [show (4 : ℝ) = 2 ^ (2 : ℤ) by norm_num, two_zpow_mul]
          refine two_zpow_le ?_
          rw [bitsFor]
          omega
      _ = 2 ^ (-p) := by
        rw [two_zpow_mul]
        congr 1
        ring

/-! Sums and products. -/

theorem within_add (hx : Within (p + 2) x.value a) (hy : Within (p + 2) y.value b) :
    Within p (BigFloat.add (bitsFor p (max x.magnitude y.magnitude + 1)) x y).value (a + b) := by
  refine within_of_near_of_within (BigFloat.near_add _ x y) ?_
    (Within.add (hx.mono (by omega)) (hy.mono (by omega)))
  exact (abs_add_le _ _).trans
    (abs_le_two_zpow_add_one (abs_value_le (le_max_left _ _)) (abs_value_le (le_max_right _ _)))

theorem within_sub (hx : Within (p + 2) x.value a) (hy : Within (p + 2) y.value b) :
    Within p (BigFloat.sub (bitsFor p (max x.magnitude y.magnitude + 1)) x y).value (a - b) := by
  refine within_of_near_of_within (BigFloat.near_sub _ x y) ?_
    (Within.sub (hx.mono (by omega)) (hy.mono (by omega)))
  exact (abs_sub _ _).trans
    (abs_le_two_zpow_add_one (abs_value_le (le_max_left _ _)) (abs_value_le (le_max_right _ _)))

/-- What a number is at most, from an approximation of it within one. -/
theorem abs_le_of_within_zero (h : Within 0 x.value a) : |a| ≤ 2 ^ max x.magnitude 0 + 1 := by
  have hclose := Within.zero_iff.1 h
  rw [abs_sub_comm] at hclose
  have hx := abs_value_le (le_max_left x.magnitude 0)
  linarith [abs_sub_abs_le_abs_sub a x.value]

theorem within_mul {x₀ y₀ : BigFloat} (hx₀ : Within 0 x₀.value a) (hy₀ : Within 0 y₀.value b)
    (hy : Within (max (p + (max x₀.magnitude 0 + 1) + 2) 0) y.value b)
    (hx : Within (max (p + (max y₀.magnitude 0 + 2) + 2) 0) x.value a) :
    Within p (BigFloat.mul (bitsFor p (x.magnitude + y.magnitude)) x y).value (a * b) := by
  have hone : (1 : ℝ) ≤ 2 ^ max x₀.magnitude 0 := one_le_zpow₀ one_le_two (le_max_right _ _)
  have hone' : (1 : ℝ) ≤ 2 ^ max y₀.magnitude 0 := one_le_zpow₀ one_le_two (le_max_right _ _)
  have ha : |a| ≤ 2 ^ (max x₀.magnitude 0 + 1) := by
    rw [← two_zpow_add_self]
    linarith [abs_le_of_within_zero hx₀]
  have hb : |y.value| ≤ 2 ^ (max y₀.magnitude 0 + 2) := by
    have hclose : |y.value - b| ≤ 1 := Within.zero_iff.1 (hy.mono (le_max_right _ _))
    have hle := abs_sub_abs_le_abs_sub y.value b
    rw [show max y₀.magnitude 0 + 2 = max y₀.magnitude 0 + 1 + 1 by ring, ← two_zpow_add_self,
      ← two_zpow_add_self]
    linarith [abs_le_of_within_zero hy₀]
  refine within_of_near_of_within (BigFloat.near_mul _ x y) ?_
    (Within.mul ha hb (hy.mono (by omega)) (hx.mono (by omega)))
  rw [abs_mul, ← two_zpow_mul]
  exact mul_le_mul (abs_value_le le_rfl) (abs_value_le le_rfl) (abs_nonneg _) (two_zpow_pos _).le

/-! Inverses and logarithms, of numbers that are known to be away from zero. -/

/-- An approximation that is close for the size of the number keeps half of that. -/
theorem two_zpow_sub_one_le {low : ℤ} {u : ℝ} (ha : 2 ^ low ≤ |a|) (h : Within (1 - low) u a) :
    2 ^ (low - 1) ≤ |u| := by
  rw [Within, neg_sub] at h
  have hhalf := two_zpow_add_self (low - 1)
  rw [sub_add_cancel] at hhalf
  have := abs_sub_abs_le_abs_sub a u
  rw [abs_sub_comm] at this
  linarith

theorem within_inverse {low : ℤ} (ha : 2 ^ low ≤ |a|)
    (h : Within (max (p - 2 * low + 2) (1 - low)) y.value a) :
    Within p (BigFloat.div (bitsFor p (1 - low)) (BigFloat.ofInt 1) y).value a⁻¹ := by
  have hy := two_zpow_sub_one_le ha (h.mono (le_max_right _ _))
  have hne : y.value ≠ 0 := abs_pos.1 ((two_zpow_pos _).trans_le hy)
  have hnear := BigFloat.near_div (bitsFor p (1 - low)) (BigFloat.ofInt 1) hne
  rw [BigFloat.value_ofInt, Int.cast_one, one_div] at hnear
  refine within_of_near_of_within hnear ?_ (Within.inv ha hy (h.mono (by omega)))
  rw [abs_inv, show 1 - low = -(low - 1) by ring, zpow_neg]
  exact inv_anti₀ (two_zpow_pos _) hy

theorem abs_log_le (hx : 0 < x.value) :
    |Real.log x.value| ≤ 2 ^ (bitLength (x.magnitude.natAbs + 1) : ℤ) := by
  have hlog : 0 ≤ Real.log 2 := Real.log_nonneg one_le_two
  have hlog' : Real.log 2 ≤ 1 := Real.log_two_lt_d9.le.trans (by norm_num)
  have hhigh : Real.log x.value ≤ x.magnitude * Real.log 2 := by
    rw [← Real.log_zpow]
    exact Real.log_le_log hx ((le_abs_self _).trans (abs_value_le le_rfl))
  have hlow : ((x.magnitude - 1 : ℤ) : ℝ) * Real.log 2 ≤ Real.log x.value := by
    rw [← Real.log_zpow]
    refine Real.log_le_log (two_zpow_pos _) ?_
    have := BigFloat.two_zpow_le_abs_value hx.ne'
    rwa [abs_of_pos hx] at this
  have hbound : |Real.log x.value| ≤ (x.magnitude.natAbs + 1 : ℕ) := by
    have hm : |(x.magnitude : ℝ)| = (x.magnitude.natAbs : ℝ) := by
      rw [← Int.cast_abs, Int.abs_eq_natAbs, Int.cast_natCast]
    have hle := le_abs_self (x.magnitude : ℝ)
    have hge := neg_abs_le (x.magnitude : ℝ)
    rw [hm] at hle hge
    push_cast at hlow ⊢
    rw [abs_le]
    constructor <;> nlinarith [Nat.cast_nonneg (α := ℝ) x.magnitude.natAbs]
  refine hbound.trans ?_
  rw [zpow_natCast]
  exact_mod_cast (lt_two_pow_bitLength _).le

theorem within_ln {kernel : Kernel} (hk : kernel.Accurate) {low : ℤ} (hpos : 0 < a)
    (ha : 2 ^ low ≤ |a|) (h : Within (max (p - low + 3) (1 - low)) x.value a) :
    Within p (kernel.ln (bitsFor p (bitLength (x.magnitude.natAbs + 1))) x).value (Real.log a) := by
  rw [abs_of_pos hpos] at ha
  have hx : 2 ^ (low - 1) ≤ x.value := by
    have hclose := h.mono (le_max_right _ _)
    rw [Within, neg_sub] at hclose
    have hhalf := two_zpow_add_self (low - 1)
    rw [sub_add_cancel] at hhalf
    linarith [(abs_le.1 hclose).1]
  have hx₀ : 0 < x.value := (two_zpow_pos _).trans_le hx
  exact within_of_near_of_within (hk.ln _ x hx₀) (abs_log_le hx₀)
    (Within.log ha hx (h.mono (by omega)))

/-! Roots and exponentials. -/

theorem within_sqrt (h : Within (2 * p + 4) x.value a) :
    Within p (BigFloat.sqrt (bitsFor p (x.magnitude / 2 + 1)) x).value √a := by
  refine within_of_near_of_within (BigFloat.near_sqrt _ x) ?_ (Within.sqrt (h.mono (by omega)))
  rw [abs_of_nonneg (Real.sqrt_nonneg _), Real.sqrt_le_left (two_zpow_pos _).le, ← zpow_natCast,
    ← zpow_mul]
  refine (le_abs_self _).trans (abs_value_le ?_)
  push_cast
  omega

/-- The bits of a sum and a product lose less than the constant has to spare. -/
theorem exp_add_one_le (x : BigFloat) : Real.exp (x.value + 1) ≤ 2 ^ expMagnitude x := by
  unfold expMagnitude
  have hsum := BigFloat.near_add 53 x (BigFloat.ofInt 1)
  have hproduct := BigFloat.near_mul 53 (BigFloat.add 53 x (BigFloat.ofInt 1)) log2e
  obtain ⟨δ, hδ, hsum⟩ := exists_factor hsum
  obtain ⟨η, hη, hproduct⟩ := exists_factor hproduct
  have hceil := BigFloat.le_ceil (BigFloat.mul 53 (BigFloat.add 53 x (BigFloat.ofInt 1)) log2e)
  generalize BigFloat.mul 53 (BigFloat.add 53 x (BigFloat.ofInt 1)) log2e = t at *
  rw [hproduct, hsum, BigFloat.value_ofInt, Int.cast_one] at hceil
  generalize x.value + 1 = w at *
  rcases le_or_gt w 0 with hw | hw
  · calc Real.exp w ≤ 1 := Real.exp_le_one_iff.2 hw
      _ ≤ 2 ^ max (t.ceil + 1) 0 := one_le_zpow₀ one_le_two (le_max_right _ _)
  · have hsmall : (2 : ℝ) ^ (-(53 : ℤ)) ≤ 1 / 10 ^ 9 := by norm_num
    have hδ' := (abs_le.1 (hδ.trans hsmall)).1
    have hη' := (abs_le.1 (hη.trans hsmall)).1
    have hlong : 1.44269999 ≤ log2e.value := by
      rw [log2e, BigFloat.value_mk]
      norm_num
    have hfactor : 1 ≤ (1 + δ) * log2e.value * (1 + η) * Real.log 2 := by
      have hlog := Real.log_two_gt_d9
      have hδ₀ : 0 ≤ 1 + δ := by linarith
      have hη₀ : 0 ≤ 1 + η := by linarith
      have hlong₀ : 0 ≤ log2e.value := by linarith
      calc (1 : ℝ) ≤ (1 + -(1 / 10 ^ 9)) * 1.44269999 * (1 + -(1 / 10 ^ 9)) * 0.6931471803 := by
            norm_num
        _ ≤ (1 + δ) * log2e.value * (1 + η) * Real.log 2 := by gcongr
    have hle : w ≤ (t.ceil + 1 : ℤ) * Real.log 2 := by
      have hlog : 0 < Real.log 2 := Real.log_pos one_lt_two
      push_cast
      calc w ≤ w * ((1 + δ) * log2e.value * (1 + η) * Real.log 2) :=
            le_mul_of_one_le_right hw.le hfactor
        _ = w * (1 + δ) * log2e.value * (1 + η) * Real.log 2 := by ring
        _ ≤ (t.ceil + 1) * Real.log 2 := mul_le_mul_of_nonneg_right (by linarith) hlog.le
    calc Real.exp w ≤ Real.exp ((t.ceil + 1 : ℤ) * Real.log 2) := Real.exp_le_exp.2 hle
      _ = 2 ^ (t.ceil + 1) := by
        rw [← Real.log_zpow, Real.exp_log (two_zpow_pos _)]
      _ ≤ 2 ^ max (t.ceil + 1) 0 := two_zpow_le (le_max_left _ _)

theorem within_exp {kernel : Kernel} (hk : kernel.Accurate) {x₀ : BigFloat}
    (hx₀ : Within 0 x₀.value a) (hx : Within (max (p + expMagnitude x₀ + 4) 0) x.value a) :
    Within p (kernel.exp (bitsFor p (expMagnitude x₀ + 2)) x).value (Real.exp a) := by
  have hclose : |x₀.value - a| ≤ 1 := Within.zero_iff.1 hx₀
  have hone : |x.value - a| ≤ 1 := Within.zero_iff.1 (hx.mono (le_max_right _ _))
  have ha : Real.exp a ≤ 2 ^ expMagnitude x₀ :=
    (Real.exp_le_exp.2 (by linarith [(abs_le.1 hclose).1])).trans (exp_add_one_le x₀)
  refine within_of_near_of_within (hk.exp _ x) ?_ (Within.exp ha hone (hx.mono (by omega)))
  rw [abs_of_pos (Real.exp_pos _)]
  exact Within.exp_le_of_le_add_one ha (by linarith [(abs_le.1 hone).2])

/-! Functions of bounded value. -/

theorem abs_le_two_of_abs_le_pi_div_two (h : |z| ≤ Real.pi / 2) : |z| ≤ 2 ^ (1 : ℤ) := by
  rw [zpow_one]
  linarith [Real.pi_le_four]

theorem within_sin {kernel : Kernel} (hk : kernel.Accurate) (h : Within (p + 2) x.value a) :
    Within p (kernel.sin (bitsFor p 1) x).value (Real.sin a) :=
  within_of_near_of_within (hk.sin _ x)
    ((Real.abs_sin_le_one _).trans (by norm_num)) (Within.sin (h.mono (by omega)))

theorem within_cos {kernel : Kernel} (hk : kernel.Accurate) (h : Within (p + 2) x.value a) :
    Within p (kernel.cos (bitsFor p 1) x).value (Real.cos a) :=
  within_of_near_of_within (hk.cos _ x)
    ((Real.abs_cos_le_one _).trans (by norm_num)) (Within.cos (h.mono (by omega)))

theorem within_arctan {kernel : Kernel} (hk : kernel.Accurate) (h : Within (p + 2) x.value a) :
    Within p (kernel.arctan (bitsFor p 1) x).value (Real.arctan a) :=
  within_of_near_of_within (hk.arctan _ x)
    (abs_le_two_of_abs_le_pi_div_two (abs_le.2
      ⟨(Real.neg_pi_div_two_lt_arctan _).le, (Real.arctan_lt_pi_div_two _).le⟩))
    (Within.arctan (h.mono (by omega)))

theorem within_arcsin {kernel : Kernel} (hk : kernel.Accurate)
    (hx : -1 ≤ x.value ∧ x.value ≤ 1) (ha : -1 ≤ a ∧ a ≤ 1)
    (h : Within (2 * p + 6) x.value a) :
    Within p (kernel.arcsin (bitsFor p 1) x).value (Real.arcsin a) :=
  within_of_near_of_within (hk.arcsin _ x hx)
    (abs_le_two_of_abs_le_pi_div_two (abs_le.2
      ⟨Real.neg_pi_div_two_le_arcsin _, Real.arcsin_le_pi_div_two _⟩))
    (Within.arcsin hx ha (h.mono (by omega)))

theorem pi_le_two_zpow_two : Real.pi ≤ 2 ^ (2 : ℤ) :=
  Real.pi_le_four.trans (by norm_num)

theorem within_arccos {kernel : Kernel} (hk : kernel.Accurate)
    (hx : -1 ≤ x.value ∧ x.value ≤ 1) (ha : -1 ≤ a ∧ a ≤ 1)
    (h : Within (2 * p + 6) x.value a) :
    Within p (kernel.arccos (bitsFor p 2) x).value (Real.arccos a) := by
  refine within_of_near_of_within (hk.arccos _ x hx) ?_ (Within.arccos hx ha (h.mono (by omega)))
  rw [abs_of_nonneg (Real.arccos_nonneg _)]
  exact (Real.arccos_le_pi _).trans pi_le_two_zpow_two

theorem within_pi {kernel : Kernel} (hk : kernel.Accurate) (p : ℤ) :
    Within p (kernel.pi (bitsFor p 2)).value Real.pi := by
  refine (within_of_near (hk.pi _) ?_).mono (by omega)
  rw [abs_of_pos Real.pi_pos]
  exact pi_le_two_zpow_two

theorem within_e {kernel : Kernel} (hk : kernel.Accurate) (p : ℤ) :
    Within p (kernel.e (bitsFor p 2)).value (Real.exp 1) := by
  refine (within_of_near (hk.e _) ?_).mono (by omega)
  rw [abs_of_pos (Real.exp_pos _)]
  exact Real.exp_one_lt_d9.le.trans (by norm_num)

/-! Requests. -/

/-- The nearest number between −1 and 1 is as near to one that lies there. -/
theorem within_clamp {q : ℤ} (ha : -1 ≤ a ∧ a ≤ 1) (h : Within q x.value a) :
    Within q (BigFloat.maximum (BigFloat.minimum x (BigFloat.ofInt 1)) (BigFloat.ofInt (-1))).value
      a := by
  rw [BigFloat.value_maximum, BigFloat.value_minimum, BigFloat.value_ofInt, BigFloat.value_ofInt,
    Within]
  refine le_trans ?_ h
  rw [abs_le]
  have := abs_le.1 (le_refl |x.value - a|)
  push_cast
  rcases le_total x.value 1 with hx | hx
  · rw [min_eq_left hx]
    rcases le_total x.value (-1) with hx' | hx'
    · rw [max_eq_right hx']
      constructor <;> linarith
    · rw [max_eq_left hx']
      constructor <;> linarith
  · rw [min_eq_right hx, max_eq_left (by norm_num)]
    constructor <;> linarith

variable {c : Contract BigFloat ArithmeticError} {n node : ℕ} {q : ℤ}

theorem keeps_unitRange {i : Fin n} (hrefuses : 1 < |a| → c.refuses node .outsideUnitRange)
    (hi : ∀ q v, c.accepts i q v → Within q v.value a) {next : BigFloat → Inquiry n}
    (h : ∀ x, -1 ≤ x.value ∧ x.value ≤ 1 →
      (-1 ≤ a ∧ a ≤ 1 → Within (2 * p + 6) x.value a) → c.Keeps node q (next x)) :
    c.Keeps node q (unitRange i p next) := by
  intro x hx
  dsimp only
  split
  · rename_i houtside
    have hclose := abs_le.1 (hi _ _ hx)
    rw [Bool.or_eq_true, BigFloat.lt_iff, BigFloat.lt_iff, BigFloat.value_neg, BigFloat.value_addExact,
      BigFloat.value_ofInt, BigFloat.value_twoPow] at houtside
    push_cast at houtside
    refine hrefuses (lt_abs.2 (houtside.imp (fun hx => ?_) fun hx => ?_)) <;> linarith
  · refine h _ ?_ fun ha => within_clamp ha (hi _ _ hx)
    rw [BigFloat.value_maximum, BigFloat.value_minimum, BigFloat.value_ofInt, BigFloat.value_ofInt]
    norm_num

/-- What shows that a node is away from zero does so by a margin. -/
theorem two_zpow_le_of_tested {t : ℤ} (hx : x.value ≠ 0) (ht : 2 - t ≤ x.magnitude)
    (h : Within t x.value a) : 2 ^ (x.magnitude - 2) ≤ |a| := by
  have hclose : |x.value - a| ≤ 2 ^ (x.magnitude - 2) := le_trans h (two_zpow_le (by omega))
  have hlow := BigFloat.two_zpow_le_abs_value hx
  rw [show x.magnitude - 1 = x.magnitude - 2 + 1 by ring, ← two_zpow_add_self] at hlow
  linarith [abs_sub_abs_le_abs_sub x.value a]

theorem neg_of_tested {t : ℤ} (hx : x.value < 0) (ht : 2 - t ≤ x.magnitude)
    (h : Within t x.value a) : a < 0 := by
  have hclose : |x.value - a| ≤ 2 ^ (x.magnitude - 2) := le_trans h (two_zpow_le (by omega))
  have hlow := BigFloat.two_zpow_le_abs_value hx.ne
  rw [show x.magnitude - 1 = x.magnitude - 2 + 1 by ring, ← two_zpow_add_self, abs_of_neg hx] at hlow
  linarith [(abs_le.1 hclose).1, two_zpow_pos (x.magnitude - 2)]

/-- What does not show that a node is away from zero leaves little room for it. -/
theorem abs_lt_of_not_tested {t : ℤ} (hx : x.value ≠ 0 → x.magnitude < 2 - t)
    (h : Within t x.value a) : |a| < 2 ^ (2 - t) := by
  have hsmall : |x.value| < 2 ^ (1 - t) := by
    by_cases hzero : x.value = 0
    · rw [hzero, abs_zero]
      exact two_zpow_pos _
    · exact (BigFloat.abs_value_lt x).trans_le (two_zpow_le (by have := hx hzero; omega))
  have hclose : |x.value - a| ≤ 2 ^ (1 - t) := le_trans h (two_zpow_le (by omega))
  have hsum := abs_sub_abs_le_abs_sub a x.value
  rw [abs_sub_comm] at hsum
  rw [show 2 - t = 1 - t + 1 by ring, ← two_zpow_add_self]
  linarith

theorem keeps_lowerBound {i : Fin n} (hi : ∀ q v, c.accepts i q v → Within q v.value a)
    {next : Option (ℤ × BigFloat) → Inquiry n} (tests : List ℕ)
    (hnone : (∀ t ∈ tests, |a| < 2 ^ (2 - (t : ℤ))) → c.Keeps node q (next none))
    (hsome : ∀ low x, 2 ^ low ≤ |a| → (x.value < 0 → a < 0) → c.Keeps node q (next (some (low, x)))) :
    c.Keeps node q (lowerBound i next tests) := by
  induction tests with
  | nil => exact hnone (List.forall_mem_nil _)
  | cons t tests ih =>
    intro x hx
    have hclose := hi _ _ hx
    dsimp only
    split
    · rename_i htest
      rw [Bool.and_eq_true, Bool.not_eq_true', decide_eq_true_iff] at htest
      refine hsome _ _ (two_zpow_le_of_tested ?_ htest.2 hclose) fun hneg =>
        neg_of_tested hneg htest.2 hclose
      intro hzero
      rw [BigFloat.isZero_iff.2 hzero] at htest
      cases htest.1
    · rename_i htest
      refine ih fun htests => hnone (List.forall_mem_cons.2 ⟨?_, htests⟩)
      refine abs_lt_of_not_tested (fun hne => ?_) hclose
      rw [Bool.and_eq_true, Bool.not_eq_true', decide_eq_true_iff, not_and, not_le] at htest
      exact htest (Bool.eq_false_iff.2 (mt BigFloat.isZero_iff.1 hne))

/-- An operation comes within what is asked of its value, whatever acceptable approximations its operands
give, and fails only for what its operand is. -/
theorem keeps_approximateOp {kernel : Kernel} (hk : kernel.Accurate) {op : Op (Fin n)} {r : Fin n → ℝ}
    (hrefuses : ∀ e, op.Faults r e → c.refuses node e)
    (hoperands : ∀ i ∈ op.operands, ∀ q v, c.accepts i q v → Within q v.value (r i))
    (haccepts : ∀ v, (op.IsDefined r → Within p v.value (op.value r)) → c.accepts node p v) :
    c.Keeps node p (approximateOp kernel p op) := by
  cases op with
  | rational q => exact haccepts _ fun _ => within_rational q p
  | pi => exact haccepts _ fun _ => within_pi hk p
  | e => exact haccepts _ fun _ => within_e hk p
  | add i j =>
    have hi := hoperands i (by simp [Op.operands])
    have hj := hoperands j (by simp [Op.operands])
    intro x hx y hy
    exact haccepts _ fun _ => within_add (hi _ _ hx) (hj _ _ hy)
  | sub i j =>
    have hi := hoperands i (by simp [Op.operands])
    have hj := hoperands j (by simp [Op.operands])
    intro x hx y hy
    exact haccepts _ fun _ => within_sub (hi _ _ hx) (hj _ _ hy)
  | mul i j =>
    have hi := hoperands i (by simp [Op.operands])
    have hj := hoperands j (by simp [Op.operands])
    intro x₀ hx₀ y₀ hy₀ y hy x hx
    exact haccepts _ fun _ => within_mul (hi _ _ hx₀) (hj _ _ hy₀) (hj _ _ hy) (hi _ _ hx)
  | neg i =>
    intro x hx
    refine haccepts _ fun _ => ?_
    rw [BigFloat.value_neg]
    exact (List.forall_mem_singleton.1 hoperands _ _ hx).neg
  | inverse i =>
    have hi := List.forall_mem_singleton.1 hoperands
    refine keeps_lowerBound hi _ (fun hsmall => ?_) fun low _ hlow _ y hy => ?_
    · exact hrefuses _ ⟨rfl, hsmall 4096 (by decide)⟩
    · exact haccepts _ fun _ => within_inverse hlow (hi _ _ hy)
  | sqrt i =>
    intro x hx
    have hclose := List.forall_mem_singleton.1 hoperands _ _ hx
    have hroot := within_sqrt hclose
    dsimp only
    split
    · rename_i hnegative
      rw [BigFloat.lt_iff, BigFloat.value_neg, BigFloat.value_twoPow] at hnegative
      exact hrefuses _ ⟨rfl, by linarith [(abs_le.1 hclose).1]⟩
    · split
      · rename_i hzero
        refine haccepts _ fun _ => ?_
        rwa [BigFloat.sqrt, if_pos hzero] at hroot
      · exact haccepts _ fun _ => hroot
  | ln i =>
    have hi := List.forall_mem_singleton.1 hoperands
    refine keeps_lowerBound hi _ (fun hsmall => ?_) fun low x hlow hsign => ?_
    · exact hrefuses _ ⟨rfl, (le_abs_self _).trans_lt (hsmall 4096 (by decide))⟩
    · dsimp only
      split
      · rename_i hnegative
        exact hrefuses _ ⟨rfl, (hsign (BigFloat.value_neg_iff.2 hnegative)).trans (two_zpow_pos _)⟩
      · exact fun y hy => haccepts _ fun hpositive => within_ln hk hpositive hlow (hi _ _ hy)
  | exp i =>
    have hi := List.forall_mem_singleton.1 hoperands
    exact fun x₀ hx₀ x hx => haccepts _ fun _ => within_exp hk (hi _ _ hx₀) (hi _ _ hx)
  | sin i =>
    exact fun x hx => haccepts _ fun _ =>
      within_sin hk (List.forall_mem_singleton.1 hoperands _ _ hx)
  | cos i =>
    exact fun x hx => haccepts _ fun _ =>
      within_cos hk (List.forall_mem_singleton.1 hoperands _ _ hx)
  | arcsin i =>
    rw [approximateOp]
    refine keeps_unitRange (fun houtside => hrefuses _ ⟨rfl, houtside⟩)
      (List.forall_mem_singleton.1 hoperands) fun x hx h => ?_
    exact haccepts _ fun hdefined => within_arcsin hk hx hdefined (h hdefined)
  | arccos i =>
    rw [approximateOp]
    refine keeps_unitRange (fun houtside => hrefuses _ ⟨rfl, houtside⟩)
      (List.forall_mem_singleton.1 hoperands) fun x hx h => ?_
    exact haccepts _ fun hdefined => within_arccos hk hx hdefined (h hdefined)
  | arctan i =>
    exact fun x hx => haccepts _ fun _ =>
      within_arctan hk (List.forall_mem_singleton.1 hoperands _ _ hx)

/-! Runs. -/

namespace Graph

/-- A node that has a value is approximated within what is asked, and one whose operands have values fails
only for what these are. Of others nothing is said. -/
def accuracy (g : Graph) : Contract BigFloat ArithmeticError where
  accepts n p v := g.IsDefined n → Within p v.value (g.value n)
  refuses n e := ∃ h : n < g.ops.size,
    (∀ i ∈ (g.ops[n]).operands, g.IsDefined i) → (g.ops[n]).Faults g.value e
  mono hle h hdefined := (h hdefined).mono hle

theorem keeps_of_not_isDefined {g : Graph} (h : ¬ g.IsDefined node)
    (hrefuses : ∀ e, g.accuracy.refuses node e) (request : Inquiry n) :
    g.accuracy.Keeps node p request := by
  induction request with
  | done value => exact fun hdefined => absurd hdefined h
  | fail error => exact hrefuses error
  | ask i q resume ih => exact fun value _ => ih value

theorem keeps_programs {kernel : Kernel} (hk : kernel.Accurate) (g : Graph) (n : ℕ) (p : ℤ) :
    g.accuracy.Keeps n p (g.programs kernel n p) := by
  unfold programs
  split
  · rename_i hn
    by_cases hbelow : ∀ i ∈ (g.ops[n]).operands, g.IsDefined i
    · have hvalue := Op.value_below g.value _ (g.ordered n hn)
      have hfaults := Op.faults_below g.value _ (g.ordered n hn)
      have hoperands := (Op.forall_operands_below (p := g.IsDefined) _ (g.ordered n hn)).2 hbelow
      refine keeps_approximateOp hk (r := fun i => g.value i) (fun e he => ⟨hn, fun _ => ?_⟩)
        (fun i hi q v hv => hv (hoperands i hi)) fun v hv hdefined => ?_
      · exact (hfaults e).1 he
      · have hop := (Op.isDefined_below g.value _ (g.ordered n hn)).2 ((isDefined_iff hn).1 hdefined).1
        rw [value_of_lt hn, ← hvalue]
        exact hv hop
    · refine keeps_of_not_isDefined (fun hdefined => ?_) (fun e => ⟨hn, fun h => absurd h hbelow⟩) _
      exact hbelow ((isDefined_iff hn).1 hdefined).2
  · rename_i hn
    intro _
    rw [value, dif_neg hn, BigFloat.value_mk, Int.cast_zero, zero_mul]
    exact Within.refl p 0

end Graph

/-- After any questions about a graph, an approximation of a node that has a value is within what is
asked of it, and so is every approximation that is kept. -/
theorem approximate_within {kernel : Kernel} (hk : kernel.Accurate) (g : Graph)
    (asked : List (ℕ × ℤ)) (node : ℕ) (p : ℤ) :
    let answer := approximate (g.programs kernel) node p
      (afterwards (g.programs kernel) asked (Array.replicate g.size none))
    (∀ v, answer.1 = .ok v → g.IsDefined node → |v.value - g.value node| ≤ 2 ^ (-p)) ∧
      ∀ n p' v', answer.2[n]? = some (some (p', v')) → g.IsDefined n →
        |v'.value - g.value n| ≤ 2 ^ (-p') := by
  have hcached := (g.accuracy.cached_empty g.size).afterwards (g.keeps_programs hk) asked
  have hsettles := g.accuracy.settles_approximate (g.keeps_programs hk) hcached node p
  exact ⟨hsettles.value, hsettles.cache⟩

/-- √2 · √2 − π, where both factors are one node. -/
def rootSquaredMinusPi : Graph where
  ops := #[.rational 2, .sqrt 0, .mul 1 1, .pi, .sub 2 3]
  ordered := by decide

/-- A node asked to a negative precision after it and an operand of it have been asked to others. -/
theorem approximate_within_shared :
    Kernel.ideal.Accurate ∧ (∀ n < 5, rootSquaredMinusPi.IsDefined n) ∧
      ∀ v, (approximate (rootSquaredMinusPi.programs Kernel.ideal) 4 (-1)
        (afterwards (rootSquaredMinusPi.programs Kernel.ideal) [(2, 30), (4, -8)]
          (Array.replicate rootSquaredMinusPi.size none))).1 = .ok v →
        |v.value - (2 - Real.pi)| ≤ 2 := by
  have hvalue : rootSquaredMinusPi.value 4 = 2 - Real.pi := by
    simp [Graph.value_of_lt, rootSquaredMinusPi, Op.value]
  have hdefined : ∀ n < 5, rootSquaredMinusPi.IsDefined n := by
    intro n hn
    interval_cases n <;>
      simp [Graph.isDefined_iff, Graph.value_of_lt, rootSquaredMinusPi, Op.IsDefined, Op.value,
        Op.operands]
  refine ⟨Kernel.ideal_accurate, hdefined, fun v hv => ?_⟩
  have hwithin := (approximate_within Kernel.ideal_accurate rootSquaredMinusPi [(2, 30), (4, -8)] 4
    (-1)).1 v hv (hdefined 4 (by norm_num))
  rwa [hvalue, neg_neg, zpow_one] at hwithin

end Reals

end Reckoner
