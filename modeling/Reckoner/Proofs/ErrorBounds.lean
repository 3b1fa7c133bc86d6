import Mathlib.Analysis.Complex.ExponentialBounds
import Mathlib.Analysis.SpecialFunctions.Trigonometric.Arctan
import Mathlib.Analysis.SpecialFunctions.Trigonometric.ArctanDeriv
import Mathlib.Analysis.SpecialFunctions.Trigonometric.Bounds
import Mathlib.Analysis.Real.Sqrt
import Reckoner.Proofs.BinaryValue
/-!
How far the result of an operation moves with its operands: for each operation, how precise its
operands must be for its result to have a precision.
-/
namespace Reckoner.Reals

theorem two_zpow_pos (k : ℤ) : (0 : ℝ) < 2 ^ k := zpow_pos two_pos k

theorem two_zpow_le {k l : ℤ} (h : k ≤ l) : (2 : ℝ) ^ k ≤ 2 ^ l := zpow_le_zpow_right₀ one_le_two h

theorem two_zpow_mul (k l : ℤ) : (2 : ℝ) ^ k * 2 ^ l = 2 ^ (k + l) := (zpow_add₀ two_ne_zero k l).symm

theorem two_zpow_add_self (k : ℤ) : (2 : ℝ) ^ k + 2 ^ k = 2 ^ (k + 1) := by
  rw [zpow_add_one₀ two_ne_zero, mul_two]

namespace Within

variable {p q : ℤ} {x y a b : ℝ}

theorem refl (p : ℤ) (a : ℝ) : Within p a a := by
  rw [Within, sub_self, abs_zero]
  exact (two_zpow_pos _).le

theorem zero_iff : Within 0 x a ↔ |x - a| ≤ 1 := by
  rw [Within, neg_zero, zpow_zero]

theorem mono (h : Within q x a) (hle : p ≤ q) : Within p x a :=
  h.trans (two_zpow_le (neg_le_neg hle))

/-- Two errors of half the size. -/
theorem half_add_half {p : ℤ} {u v : ℝ} (hu : |u| ≤ 2 ^ (-(p + 1))) (hv : |v| ≤ 2 ^ (-(p + 1))) :
    |u + v| ≤ 2 ^ (-p) :=
  calc |u + v| ≤ |u| + |v| := abs_add_le u v
    _ ≤ 2 ^ (-(p + 1)) + 2 ^ (-(p + 1)) := add_le_add hu hv
    _ = 2 ^ (-p) := by
      rw [two_zpow_add_self]
      congr 1
      ring

theorem trans (h : Within (p + 1) x y) (h' : Within (p + 1) y a) : Within p x a := by
  have := half_add_half h h'
  rwa [sub_add_sub_cancel] at this

theorem add (hx : Within (p + 1) x a) (hy : Within (p + 1) y b) : Within p (x + y) (a + b) := by
  have := half_add_half hx hy
  rwa [← add_sub_add_comm] at this

theorem neg (h : Within p x a) : Within p (-x) (-a) := by
  rwa [Within, neg_sub_neg, abs_sub_comm]

theorem sub (hx : Within (p + 1) x a) (hy : Within (p + 1) y b) : Within p (x - y) (a - b) := by
  rw [sub_eq_add_neg, sub_eq_add_neg]
  exact hx.add hy.neg

theorem mul {s t : ℤ} (ha : |a| ≤ 2 ^ s) (hy : |y| ≤ 2 ^ t) (hya : Within (p + s + 1) y b)
    (hxa : Within (p + t + 1) x a) : Within p (x * y) (a * b) := by
  have hfirst : |a * (y - b)| ≤ 2 ^ (-(p + 1)) := by
    rw [abs_mul]
    calc |a| * |y - b| ≤ 2 ^ s * 2 ^ (-(p + s + 1)) :=
          mul_le_mul ha hya (abs_nonneg _) (two_zpow_pos s).le
      _ = 2 ^ (-(p + 1)) := by
        rw [two_zpow_mul]
        congr 1
        ring
  have hsecond : |y * (x - a)| ≤ 2 ^ (-(p + 1)) := by
    rw [abs_mul]
    calc |y| * |x - a| ≤ 2 ^ t * 2 ^ (-(p + t + 1)) :=
          mul_le_mul hy hxa (abs_nonneg _) (two_zpow_pos t).le
      _ = 2 ^ (-(p + 1)) := by
        rw [two_zpow_mul]
        congr 1
        ring
  have := half_add_half hfirst hsecond
  rwa [show a * (y - b) + y * (x - a) = x * y - a * b by ring] at this

theorem inv {low : ℤ} (ha : 2 ^ low ≤ |a|) (hx : 2 ^ (low - 1) ≤ |x|)
    (h : Within (p - 2 * low + 1) x a) : Within p x⁻¹ a⁻¹ := by
  have ha₀ : 0 < |a| := (two_zpow_pos low).trans_le ha
  have hx₀ : 0 < |x| := (two_zpow_pos _).trans_le hx
  have hsplit : x⁻¹ - a⁻¹ = (a - x) / (x * a) := inv_sub_inv (abs_pos.1 hx₀) (abs_pos.1 ha₀)
  rw [Within, hsplit, abs_div, abs_mul, abs_sub_comm, div_le_iff₀ (mul_pos hx₀ ha₀)]
  calc |x - a| ≤ 2 ^ (-(p - 2 * low + 1)) := h
    _ = 2 ^ (-p) * (2 ^ (low - 1) * 2 ^ low) := by
      rw [two_zpow_mul, two_zpow_mul]
      congr 1
      ring
    _ ≤ 2 ^ (-p) * (|x| * |a|) :=
      mul_le_mul_of_nonneg_left (mul_le_mul hx ha (two_zpow_pos _).le hx₀.le) (two_zpow_pos _).le

theorem sqrt_le_sqrt_add (x a : ℝ) : √x ≤ √a + √|x - a| := by
  have hx := le_abs_self (x - a)
  rw [Real.sqrt_le_iff]
  refine ⟨add_nonneg (Real.sqrt_nonneg a) (Real.sqrt_nonneg _), ?_⟩
  rcases le_total a 0 with ha | ha
  · rw [Real.sqrt_eq_zero_of_nonpos ha, zero_add, Real.sq_sqrt (abs_nonneg _)]
    linarith
  · rw [add_sq, Real.sq_sqrt ha, Real.sq_sqrt (abs_nonneg _)]
    have := mul_nonneg (mul_nonneg zero_le_two (Real.sqrt_nonneg a)) (Real.sqrt_nonneg |x - a|)
    linarith

/-- The root of a number below zero counts as zero here, too. -/
theorem sqrt (h : Within (2 * p) x a) : Within p √x √a := by
  have hroot : √|x - a| ≤ 2 ^ (-p) := by
    rw [Real.sqrt_le_left (two_zpow_pos _).le, ← zpow_natCast, ← zpow_mul]
    refine le_trans h (two_zpow_le (le_of_eq ?_))
    push_cast
    ring
  have hx := sqrt_le_sqrt_add x a
  have ha := sqrt_le_sqrt_add a x
  rw [abs_sub_comm a x] at ha
  rw [Within, abs_le]
  constructor <;> linarith

theorem log_sub_log_le (hx : 0 < x) (ha : 0 < a) : Real.log x - Real.log a ≤ (x - a) / a := by
  rw [← Real.log_div hx.ne' ha.ne', sub_div, div_self ha.ne']
  exact Real.log_le_sub_one_of_pos (div_pos hx ha)

theorem log {low : ℤ} (ha : 2 ^ low ≤ a) (hx : 2 ^ (low - 1) ≤ x)
    (h : Within (p - low + 1) x a) : Within p (Real.log x) (Real.log a) := by
  have ha' : 2 ^ (low - 1) ≤ a := (two_zpow_le (by omega)).trans ha
  have hpos := two_zpow_pos (low - 1)
  have hbound : |x - a| ≤ 2 ^ (-p) * 2 ^ (low - 1) := by
    rw [two_zpow_mul]
    refine le_trans h (two_zpow_le (le_of_eq ?_))
    ring
  have hscale : ∀ c : ℝ, 2 ^ (low - 1) ≤ c → |x - a| / c ≤ 2 ^ (-p) := fun c hc => by
    rw [div_le_iff₀ (hpos.trans_le hc)]
    exact hbound.trans (mul_le_mul_of_nonneg_left hc (two_zpow_pos _).le)
  rw [Within, abs_le, neg_le]
  constructor
  · calc -(Real.log x - Real.log a) = Real.log a - Real.log x := neg_sub _ _
      _ ≤ (a - x) / x := log_sub_log_le (hpos.trans_le ha') (hpos.trans_le hx)
      _ ≤ |x - a| / x := by
        rw [abs_sub_comm]
        exact div_le_div_of_nonneg_right (le_abs_self _) (hpos.trans_le hx).le
      _ ≤ 2 ^ (-p) := hscale x hx
  · calc Real.log x - Real.log a ≤ (x - a) / a :=
          log_sub_log_le (hpos.trans_le hx) (hpos.trans_le ha')
      _ ≤ |x - a| / a := div_le_div_of_nonneg_right (le_abs_self _) (hpos.trans_le ha').le
      _ ≤ 2 ^ (-p) := hscale a ha'

/-- What a step of at most one magnifies is less than four times the exponential. -/
theorem exp_le_of_le_add_one {top : ℤ} (ha : Real.exp a ≤ 2 ^ top) (hx : x ≤ a + 1) :
    Real.exp x ≤ 2 ^ (top + 2) :=
  calc Real.exp x ≤ Real.exp (a + 1) := Real.exp_le_exp.2 hx
    _ = Real.exp 1 * Real.exp a := by rw [Real.exp_add, mul_comm]
    _ ≤ 2 ^ (2 : ℤ) * 2 ^ top :=
      mul_le_mul (by linarith [Real.exp_one_lt_d9]) ha (Real.exp_pos a).le (by norm_num)
    _ = 2 ^ (top + 2) := by rw [two_zpow_mul, add_comm]

theorem exp_sub_exp_le (x a : ℝ) : Real.exp x - Real.exp a ≤ Real.exp x * |x - a| := by
  have hfactor : Real.exp x - Real.exp a = Real.exp x * (1 - Real.exp (a - x)) := by
    rw [mul_sub, mul_one, ← Real.exp_add, add_sub_cancel]
  rw [hfactor]
  refine mul_le_mul_of_nonneg_left ?_ (Real.exp_pos x).le
  have := Real.add_one_le_exp (a - x)
  have := le_abs_self (x - a)
  linarith

theorem exp {top : ℤ} (ha : Real.exp a ≤ 2 ^ top) (hone : |x - a| ≤ 1)
    (h : Within (p + top + 2) x a) : Within p (Real.exp x) (Real.exp a) := by
  have hx : Real.exp x ≤ 2 ^ (top + 2) :=
    exp_le_of_le_add_one ha (by linarith [le_abs_self (x - a)])
  have ha' : Real.exp a ≤ 2 ^ (top + 2) := ha.trans (two_zpow_le (by omega))
  have hscale : ∀ c : ℝ, c ≤ 2 ^ (top + 2) → c * |x - a| ≤ 2 ^ (-p) := fun c hc =>
    calc c * |x - a| ≤ 2 ^ (top + 2) * 2 ^ (-(p + top + 2)) :=
          mul_le_mul hc h (abs_nonneg _) (two_zpow_pos _).le
      _ = 2 ^ (-p) := by
        rw [two_zpow_mul]
        congr 1
        ring
  rw [Within, abs_le, neg_le]
  constructor
  · rw [neg_sub]
    refine (exp_sub_exp_le a x).trans ?_
    rw [abs_sub_comm]
    exact hscale _ ha'
  · exact (exp_sub_exp_le x a).trans (hscale _ hx)

theorem sin (h : Within p x a) : Within p (Real.sin x) (Real.sin a) :=
  (Real.abs_sin_sub_sin_le x a).trans h

theorem cos (h : Within p x a) : Within p (Real.cos x) (Real.cos a) :=
  (Real.abs_cos_sub_cos_le x a).trans h

theorem arctan (h : Within p x a) : Within p (Real.arctan x) (Real.arctan a) := by
  have hlip : ‖Real.arctan x - Real.arctan a‖ ≤ 1 * ‖x - a‖ := by
    refine convex_univ.norm_image_sub_le_of_norm_deriv_le
      (fun y _ => (Real.differentiable_arctan y)) (fun y _ => ?_) (Set.mem_univ a) (Set.mem_univ x)
    rw [Real.deriv_arctan, Real.norm_of_nonneg (by positivity)]
    exact div_le_one_of_le₀ (by nlinarith [sq_nonneg y]) (by positivity)
  rw [one_mul] at hlip
  exact le_trans hlip h

/-- Two arc sines are no further apart than the root of eight times the distance of the sines. -/
theorem sq_sub_le_of_sin {u v : ℝ} (hv : -(Real.pi / 2) ≤ v) (hvu : v ≤ u) (hu : u ≤ Real.pi / 2) :
    (u - v) ^ 2 ≤ 8 * (Real.sin u - Real.sin v) := by
  have hd : 0 ≤ (u - v) / 2 := by linarith
  have hsin : 2 / Real.pi * ((u - v) / 2) ≤ Real.sin ((u - v) / 2) :=
    Real.mul_le_sin hd (by linarith)
  have hcos : Real.sin ((u - v) / 2) ≤ Real.cos ((u + v) / 2) := by
    rw [← Real.cos_pi_div_two_sub, ← Real.cos_abs ((u + v) / 2)]
    refine Real.cos_le_cos_of_nonneg_of_le_pi (abs_nonneg _) (by linarith) (abs_le.2 ⟨?_, ?_⟩) <;>
      linarith
  have hpi : (1 : ℝ) / 2 ≤ 2 / Real.pi := by
    rw [div_le_div_iff₀ two_pos Real.pi_pos]
    linarith [Real.pi_le_four]
  have hquarter : (u - v) / 4 ≤ Real.sin ((u - v) / 2) :=
    calc (u - v) / 4 = 1 / 2 * ((u - v) / 2) := by ring
      _ ≤ 2 / Real.pi * ((u - v) / 2) := mul_le_mul_of_nonneg_right hpi hd
      _ ≤ Real.sin ((u - v) / 2) := hsin
  calc (u - v) ^ 2 = 16 * ((u - v) / 4 * ((u - v) / 4)) := by ring
    _ ≤ 16 * (Real.sin ((u - v) / 2) * Real.cos ((u + v) / 2)) := by
      have hpos : 0 ≤ (u - v) / 4 := by linarith
      have := mul_le_mul hquarter (hquarter.trans hcos) hpos (hpos.trans hquarter)
      linarith
    _ = 8 * (Real.sin u - Real.sin v) := by
      rw [Real.sin_sub_sin]
      ring

theorem sq_arcsin_sub_arcsin_le {x a : ℝ} (hx : -1 ≤ x ∧ x ≤ 1) (ha : -1 ≤ a ∧ a ≤ 1) :
    (Real.arcsin x - Real.arcsin a) ^ 2 ≤ 8 * |x - a| := by
  have hordered : ∀ {x a : ℝ}, -1 ≤ a → a ≤ x → x ≤ 1 →
      (Real.arcsin x - Real.arcsin a) ^ 2 ≤ 8 * |x - a| := fun {x a} ha hle hx => by
    have := sq_sub_le_of_sin (Real.neg_pi_div_two_le_arcsin a) (Real.monotone_arcsin hle)
      (Real.arcsin_le_pi_div_two x)
    rwa [Real.sin_arcsin (ha.trans hle) hx, Real.sin_arcsin ha (hle.trans hx),
      ← abs_of_nonneg (sub_nonneg.2 hle)] at this
  rcases le_total a x with hle | hle
  · exact hordered ha.1 hle hx.2
  · rw [sub_sq_comm, abs_sub_comm]
    exact hordered hx.1 hle ha.2

theorem arcsin (hx : -1 ≤ x ∧ x ≤ 1) (ha : -1 ≤ a ∧ a ≤ 1) (h : Within (2 * p + 3) x a) :
    Within p (Real.arcsin x) (Real.arcsin a) := by
  refine abs_le_of_sq_le_sq ?_ (two_zpow_pos (-p)).le
  calc (Real.arcsin x - Real.arcsin a) ^ 2 ≤ 8 * |x - a| := sq_arcsin_sub_arcsin_le hx ha
    _ ≤ 2 ^ (3 : ℤ) * 2 ^ (-(2 * p + 3)) :=
      mul_le_mul (by norm_num) h (abs_nonneg _) (two_zpow_pos _).le
    _ = (2 ^ (-p)) ^ 2 := by
      rw [two_zpow_mul, ← zpow_natCast, ← zpow_mul]
      congr 1
      push_cast
      ring

theorem arccos (hx : -1 ≤ x ∧ x ≤ 1) (ha : -1 ≤ a ∧ a ≤ 1) (h : Within (2 * p + 3) x a) :
    Within p (Real.arccos x) (Real.arccos a) := by
  have := arcsin hx ha h
  rwa [Within, Real.arccos, Real.arccos, sub_sub_sub_cancel_left, abs_sub_comm]

end Within

end Reckoner.Reals
