import Mathlib.Analysis.Real.Pi.Irrational
import Mathlib.Analysis.SpecialFunctions.Trigonometric.Complex
import Mathlib.NumberTheory.Niven
import Mathlib.Tactic.IntervalCases
import Reckoner.Proofs.ExactFunctions
/-!
Where exact functions are defined, and where they know their value. An exact function fails just where
the function on real numbers has no value (`Exact.apply_eq_error_iff`), and the sine and cosine of an
angle in degrees are found whenever they are rational.
-/
namespace Reckoner

namespace FunctionName

/-- Whether the function has a value at a number. The tangent has none where the cosine is zero. -/
def IsDefined (degrees : Bool) (f : FunctionName) (x : ℝ) : Prop :=
  match f with
  | .tan => Real.cos (radians degrees x) ≠ 0
  | .arcsin | .arccos => -1 ≤ x ∧ x ≤ 1
  | .ln | .log => 0 < x
  | .sin | .cos | .arctan | .exp => True

/-- What is wrong with an argument at which the function has no value. -/
def complaint : FunctionName → ArithmeticError
  | .ln | .log => .logarithmOfNonPositive
  | .arcsin | .arccos => .outsideUnitRange
  | _ => .tangentUndefined

end FunctionName

namespace Exact

variable {q r : ℚ} {e : ArithmeticError}

/-! Domains. -/

theorem ln_eq_error_iff :
    ln (some q) = .error e ↔ ¬ 0 < (q : ℝ) ∧ e = .logarithmOfNonPositive := by
  rw [Rat.cast_pos, not_lt, ln]
  split_ifs with hq hone <;> simp [hq, eq_comm]

theorem log_eq_error_iff :
    log (some q) = .error e ↔ ¬ 0 < (q : ℝ) ∧ e = .logarithmOfNonPositive := by
  rw [Rat.cast_pos, not_lt, log]
  split_ifs with hq hden hnum <;> simp [hq, eq_comm]

theorem checkUnitRange_eq_error_iff :
    checkUnitRange (some q) = .error e ↔
      ¬ (-1 ≤ (q : ℝ) ∧ (q : ℝ) ≤ 1) ∧ e = .outsideUnitRange := by
  have hrange : (-1 ≤ (q : ℝ) ∧ (q : ℝ) ≤ 1) ↔ -1 ≤ q ∧ q ≤ 1 := by norm_cast
  rw [hrange, not_and_or, not_le, not_le, checkUnitRange]
  by_cases hq : q < -1 ∨ 1 < q
  · rw [if_pos (by simpa using hq)]
    simp [hq, eq_comm]
  · rw [if_neg (by simpa using hq)]
    simp [hq]

/-- What follows the check of the range does not fail. -/
theorem checked_eq_error_iff {b : Option ℚ} :
    (do checkUnitRange (some q); return b) = .error e ↔
      ¬ (-1 ≤ (q : ℝ) ∧ (q : ℝ) ≤ 1) ∧ e = .outsideUnitRange := by
  rw [← checkUnitRange_eq_error_iff, bind_eq_error_iff]
  simp [pure, Except.pure]

theorem arccosDegrees_eq_error_iff :
    arccosDegrees (some q) = .error e ↔
      ¬ (-1 ≤ (q : ℝ) ∧ (q : ℝ) ≤ 1) ∧ e = .outsideUnitRange := by
  rw [arccosDegrees, bind_eq_error_iff, arcsinDegrees, checked_eq_error_iff]
  simp [pure, Except.pure]

/-- No right angle is rational in radians. -/
theorem cos_ratCast_ne_zero (q : ℚ) : Real.cos q ≠ 0 := by
  rw [Real.cos_ne_zero_iff]
  intro k hk
  have hodd : (2 * k + 1 : ℚ) ≠ 0 := by exact_mod_cast (by omega : 2 * k + 1 ≠ 0)
  refine irrational_pi ⟨2 * q / (2 * k + 1), ?_⟩
  have hodd' : (2 * k + 1 : ℝ) ≠ 0 := by exact_mod_cast hodd
  push_cast
  rw [hk]
  field_simp

/-- The right angles are the odd multiples of 90 degrees. -/
theorem cos_radians_eq_zero_iff :
    Real.cos (radians true q) = 0 ↔ ∃ k : ℤ, q = 90 * (2 * k + 1) := by
  rw [Real.cos_eq_zero_iff]
  refine exists_congr fun k => ?_
  have hunit : Real.pi / 180 ≠ 0 := div_ne_zero Real.pi_ne_zero (by norm_num)
  have hangle : (2 * k + 1) * Real.pi / 2 = ((90 * (2 * k + 1) : ℚ) : ℝ) * (Real.pi / 180) := by
    push_cast
    ring
  rw [radians, if_pos rfl, hangle, mul_left_inj' hunit, Rat.cast_inj]

/-- A multiple of a number by an integer, divided by that number. -/
theorem mul_intCast_div {d : ℚ} (hd : d ≠ 0) (k : ℤ) :
    (d * k / d).den = 1 ∧ (d * k / d).num = k := by
  rw [mul_div_cancel_left₀ _ hd]
  exact ⟨Rat.den_intCast k, Rat.num_intCast k⟩

/-- A number of which no fraction by `d` is an integer is no multiple of `d`. -/
theorem ne_mul_of_den_ne {d : ℚ} (hd : d ≠ 0) (h : (q / d).den ≠ 1) (k : ℤ) : q ≠ d * k := by
  rintro rfl
  exact h (mul_intCast_div hd k).1

theorem tanDegrees_eq_error_iff :
    tanDegrees (some q) = .error e ↔
      (∃ k : ℤ, q = 90 * (2 * k + 1)) ∧ e = .tangentUndefined := by
  by_cases hden : (q / 45).den = 1
  · have hq : q = 45 * ((q / 45).num : ℤ) := by exact_mod_cast eq_mul_num (by norm_num) hden
    unfold tanDegrees
    dsimp only
    rw [if_neg (not_not.2 hden)]
    generalize (q / 45).num = k at hq ⊢
    have hodd : (∃ j : ℤ, q = 90 * (2 * j + 1)) ↔ (k % 4).toNat = 2 := by
      constructor
      · rintro ⟨j, hj⟩
        have hk : (k : ℚ) = 4 * j + 2 := by linarith
        have hk' : k = 4 * j + 2 := by exact_mod_cast hk
        omega
      · intro hm
        have hk : k = 4 * (k / 4) + 2 := by omega
        have hk' : (k : ℚ) = 4 * (k / 4 : ℤ) + 2 := by exact_mod_cast hk
        use k / 4
        rw [hq, hk']
        ring
    rw [hodd]
    have hm : (k % 4).toNat < 4 := by omega
    generalize (k % 4).toNat = m at hm ⊢
    interval_cases m <;> simp [eq_comm]
  · have hne := ne_mul_of_den_ne (by norm_num) hden
    unfold tanDegrees
    dsimp only
    rw [if_pos hden]
    constructor
    · intro h
      cases h
    · rintro ⟨⟨j, hj⟩, -⟩
      refine absurd ?_ (hne (4 * j + 2))
      rw [hj]
      push_cast
      ring

/-- Wherever it is defined, the tangent of a multiple of 45 degrees is found. -/
theorem tanDegrees_mul (k : ℤ) :
    (∃ r, tanDegrees (some (45 * k)) = .ok (some r)) ∨
      tanDegrees (some (45 * k)) = .error .tangentUndefined := by
  obtain ⟨hden, hnum⟩ := mul_intCast_div (by norm_num : (45 : ℚ) ≠ 0) k
  simp only [tanDegrees, hden, hnum, ne_eq, not_true_eq_false, if_false]
  have hm : (k % 4).toNat < 4 := by omega
  generalize (k % 4).toNat = m at hm ⊢
  interval_cases m
  · exact .inl ⟨_, rfl⟩
  · exact .inl ⟨_, rfl⟩
  · exact .inr rfl
  · exact .inl ⟨_, rfl⟩

/-! Angles of rational sine. -/

theorem sinDegrees_mul (k : ℤ) : sinDegrees (some (30 * k)) = sineOfTwelfth (k % 12).toNat := by
  obtain ⟨hden, hnum⟩ := mul_intCast_div (by norm_num : (30 : ℚ) ≠ 0) k
  simp only [sinDegrees, hden, hnum, if_true]

/-- A sine that is rational is found: its angle is, from a right angle on, a multiple of 180 degrees
and 0, 60, 90 or 120 degrees more. -/
theorem exists_sinDegrees (h : ∃ r : ℚ, Real.sin (radians true q) = r) :
    ∃ r, sinDegrees (some q) = some r := by
  have hcos : ∃ r : ℚ, Real.cos (((q - 90) / 180 : ℚ) * Real.pi) = r := by
    obtain ⟨r, hr⟩ := h
    refine ⟨r, ?_⟩
    rw [← hr, radians, if_pos rfl, ← Real.cos_sub_pi_div_two]
    congr 1
    push_cast
    ring
  have hfract := niven_fract_angle_div_pi_eq hcos
  have hsplit := Int.floor_add_fract ((q - 90) / 180)
  generalize ⌊(q - 90) / 180⌋ = n at hsplit
  generalize Int.fract ((q - 90) / 180) = u at hfract hsplit
  obtain ⟨m, hm, hq⟩ : ∃ m : ℤ, (m = 3 ∨ m = 5 ∨ m = 6 ∨ m = 7) ∧ q = 30 * ((6 * n + m : ℤ) : ℚ) := by
    rcases hfract with rfl | rfl | rfl | rfl
    · exact ⟨3, by norm_num, by push_cast; linarith⟩
    · exact ⟨5, by norm_num, by push_cast; linarith⟩
    · exact ⟨6, by norm_num, by push_cast; linarith⟩
    · exact ⟨7, by norm_num, by push_cast; linarith⟩
  rw [hq, sinDegrees_mul]
  have hplace : ((6 * n + m) % 12).toNat ∈ [0, 1, 3, 5, 6, 7, 9, 11] := by
    simp only [List.mem_cons, List.not_mem_nil, or_false]
    omega
  generalize ((6 * n + m) % 12).toNat = k at hplace
  fin_cases hplace <;> exact ⟨_, rfl⟩

theorem exists_cosDegrees (h : ∃ r : ℚ, Real.cos (radians true q) = r) :
    ∃ r, cosDegrees (some q) = some r := by
  obtain ⟨r, hr⟩ := h
  refine exists_sinDegrees (q := q + 90) ⟨r, ?_⟩
  rw [← hr, ← Real.sin_add_pi_div_two, radians, radians, if_pos rfl, if_pos rfl]
  congr 1
  push_cast
  ring

/-! Named functions. -/

theorem apply_eq_error_iff {degrees : Bool} {f : FunctionName} :
    apply degrees f (some q) = .error e ↔ ¬ f.IsDefined degrees q ∧ e = f.complaint := by
  cases f with
  | ln => exact ln_eq_error_iff
  | log => exact log_eq_error_iff
  | arcsin => cases degrees <;> exact checked_eq_error_iff
  | arccos =>
    cases degrees with
    | false => exact checked_eq_error_iff
    | true => exact arccosDegrees_eq_error_iff
  | tan =>
    cases degrees with
    | false => simp [apply, FunctionName.IsDefined, radians, cos_ratCast_ne_zero]
    | true =>
      rw [FunctionName.IsDefined, ne_eq, not_not, cos_radians_eq_zero_iff]
      exact tanDegrees_eq_error_iff
  | sin | cos | arctan | exp => simp [apply, FunctionName.IsDefined]

theorem apply_tan_mul {k : ℤ} (h : FunctionName.tan.IsDefined true ((45 * k : ℚ) : ℝ)) :
    ∃ r, apply true .tan (some (45 * k)) = .ok (some r) := by
  refine (tanDegrees_mul k).resolve_right fun hundefined => ?_
  have hcomplaint : ¬ FunctionName.tan.IsDefined true ((45 * k : ℚ) : ℝ) ∧ _ :=
    apply_eq_error_iff.1 hundefined
  exact hcomplaint.1 h

/-- A named function at a known argument. What it gives is the value of the function on real numbers, and
it fails just where that has none: in degrees the tangent has none at the odd multiples of 90. In
degrees, every sine and cosine that is rational is found, and every tangent of a multiple of 45. -/
theorem apply_exact (degrees : Bool) (f : FunctionName) (q : ℚ) :
    (∀ r, apply degrees f (some q) = .ok (some r) → (r : ℝ) = f.value degrees q) ∧
      (∀ e, apply degrees f (some q) = .error e ↔ ¬ f.IsDefined degrees q ∧ e = f.complaint) ∧
      (¬ FunctionName.tan.IsDefined true q ↔ ∃ k : ℤ, q = 90 * (2 * k + 1)) ∧
      ((∃ r, apply true .sin (some q) = .ok (some r)) ↔
        ∃ r : ℚ, FunctionName.sin.value true q = r) ∧
      ((∃ r, apply true .cos (some q) = .ok (some r)) ↔
        ∃ r : ℚ, FunctionName.cos.value true q = r) ∧
      ∀ k : ℤ, q = 45 * k → FunctionName.tan.IsDefined true q →
        ∃ r, apply true .tan (some q) = .ok (some r) := by
  have hvalue : ∀ {degrees f r}, apply degrees f (some q) = .ok (some r) →
      (r : ℝ) = f.value degrees q := by
    intro degrees f r h
    obtain ⟨q', hq', hr⟩ := apply_eq_some h
    rwa [← Option.some.inj hq'] at hr
  refine ⟨fun r => hvalue, fun e => apply_eq_error_iff, ?_, ?_, ?_, ?_⟩
  · rw [FunctionName.IsDefined, ne_eq, not_not, cos_radians_eq_zero_iff]
  · constructor
    · rintro ⟨r, hr⟩
      exact ⟨r, (hvalue hr).symm⟩
    · intro h
      obtain ⟨r, hr⟩ := exists_sinDegrees h
      exact ⟨r, congrArg Except.ok hr⟩
  · constructor
    · rintro ⟨r, hr⟩
      exact ⟨r, (hvalue hr).symm⟩
    · intro h
      obtain ⟨r, hr⟩ := exists_cosDegrees h
      exact ⟨r, congrArg Except.ok hr⟩
  · rintro k rfl h
    exact apply_tan_mul h

end Exact

end Reckoner
