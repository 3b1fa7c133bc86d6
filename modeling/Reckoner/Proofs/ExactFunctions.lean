import Mathlib.Analysis.SpecialFunctions.Log.Basic
import Mathlib.Analysis.SpecialFunctions.Trigonometric.Arctan
import Mathlib.Data.Nat.Factorial.Basic
import Mathlib.Data.Nat.Sqrt
import Mathlib.Data.Rat.Cast.CharZero
import Mathlib.Tactic.IntervalCases
import Reckoner.Exact.Functions
import Reckoner.Proofs.Outcome
/-!
Exact results are right: wherever an operation on exact values gives one, it is the mathematical one, in
radians and in degrees (`Exact.apply_eq_some`).
-/
namespace Reckoner

/-- An angle in radians, given in the unit of the mode. -/
noncomputable def radians (degrees : Bool) (x : ℝ) : ℝ := if degrees then x * (Real.pi / 180) else x

/-- An angle in the unit of the mode, given in radians. -/
noncomputable def ofRadians (degrees : Bool) (x : ℝ) : ℝ :=
  if degrees then x * (180 / Real.pi) else x

/-- The named function on real numbers. -/
noncomputable def FunctionName.value (degrees : Bool) (f : FunctionName) (x : ℝ) : ℝ :=
  match f with
  | .sin => Real.sin (radians degrees x)
  | .cos => Real.cos (radians degrees x)
  | .tan => Real.tan (radians degrees x)
  | .arcsin => ofRadians degrees (Real.arcsin x)
  | .arccos => ofRadians degrees (Real.arccos x)
  | .arctan => ofRadians degrees (Real.arctan x)
  | .ln => Real.log x
  | .log => Real.log x / Real.log 10
  | .exp => Real.exp x

namespace Exact

variable {limit : ℤ} {a b : Option ℚ} {q r : ℚ} {n : ℤ}

/-! Arithmetic. -/

theorem eq_of_bounded (h : bounded limit q = some r) : r = q := by
  unfold bounded at h
  split at h
  · cases h
  · exact (Option.some.inj h).symm

/-- An operation that needs both operands and forgets what is too large. -/
theorem binary_eq_some {op : Option ℚ → Option ℚ → Option ℚ} {f : ℚ → ℚ → ℚ}
    (hleft : ∀ b, op none b = none) (hright : ∀ a, op a none = none)
    (hboth : ∀ p q, op (some p) (some q) = bounded limit (f p q)) (h : op a b = some r) :
    ∃ p q, a = some p ∧ b = some q ∧ r = f p q := by
  cases a with
  | none =>
    rw [hleft] at h
    cases h
  | some p =>
    cases b with
    | none =>
      rw [hright] at h
      cases h
    | some q =>
      rw [hboth] at h
      exact ⟨p, q, rfl, rfl, eq_of_bounded h⟩

theorem add_eq_some (h : add limit a b = some r) : ∃ p q, a = some p ∧ b = some q ∧ r = p + q :=
  binary_eq_some (fun _ => rfl) (fun a => by cases a <;> rfl) (fun _ _ => rfl) h

theorem sub_eq_some (h : sub limit a b = some r) : ∃ p q, a = some p ∧ b = some q ∧ r = p - q :=
  binary_eq_some (fun _ => rfl) (fun a => by cases a <;> rfl) (fun _ _ => rfl) h

theorem mul_eq_some (h : mul limit a b = some r) : ∃ p q, a = some p ∧ b = some q ∧ r = p * q :=
  binary_eq_some (fun _ => rfl) (fun a => by cases a <;> rfl) (fun _ _ => rfl) h

theorem div_eq_some (h : div limit a b = .ok (some r)) :
    ∃ p q, a = some p ∧ b = some q ∧ r = p / q := by
  cases a with
  | none => cases h
  | some p =>
    cases b with
    | none => cases h
    | some q =>
      by_cases hzero : q = 0
      · rw [div, if_pos hzero] at h
        cases h
      · rw [div, if_neg hzero] at h
        exact ⟨p, q, rfl, rfl, eq_of_bounded (Except.ok.inj h)⟩

theorem eq_of_toInt? (h : toInt? (some q) = some n) : q = n := by
  by_cases hden : q.den = 1
  · rw [toInt?, if_pos hden] at h
    rw [← Option.some.inj h]
    exact ((Rat.den_eq_one_iff q).1 hden).symm
  · rw [toInt?, if_neg hden] at h
    cases h

theorem intPower_eq (q : ℚ) (n : ℤ) : intPower q n = q ^ n := by
  unfold intPower
  split
  · rw [← zpow_natCast]
    congr 1
    omega
  · rw [← zpow_natCast, ← zpow_neg]
    congr 1
    omega

theorem pow_eq_some (h : pow limit a b = .ok (some r)) :
    ∃ p n, a = some p ∧ toInt? b = some n ∧ r = p ^ n := by
  cases a with
  | none => cases h
  | some p =>
    unfold pow at h
    cases hn : toInt? b with
    | none =>
      rw [hn] at h
      cases h
    | some n =>
      refine ⟨p, n, rfl, rfl, ?_⟩
      rw [hn] at h
      dsimp only at h
      split_ifs at h with hzero hone hp hp' heven hlong
      · cases h
        rcases Bool.or_eq_true_iff.1 hone with hn | hp
        · rw [of_decide_eq_true hn, zpow_zero]
        · rw [of_decide_eq_true hp, one_zpow]
      · cases h
        have hn : n ≠ 0 := by simpa using fun hn => hone (by simp [hn])
        rw [hp, zero_zpow n hn]
      · cases h
        rw [hp', Even.neg_one_zpow (Int.even_iff.2 heven)]
      · cases h
        rw [hp', Odd.neg_one_zpow (Int.not_even_iff_odd.1 (mt Int.even_iff.1 heven))]
      · cases h
      · rw [eq_of_bounded (Except.ok.inj h), intPower_eq]

theorem natFactorial_eq (n : ℕ) : natFactorial n = n.factorial := by
  induction n with
  | zero => rfl
  | succ n ih => rw [natFactorial, Nat.factorial_succ, ih]

theorem factorial_eq_some (h : factorial (some q) = .ok b) :
    ∃ n : ℕ, q = n ∧ b = some (n.factorial : ℚ) := by
  unfold factorial at h
  dsimp only at h
  split at h
  · cases h
  · rename_i n hn
    split at h
    · cases h
    · rename_i hneg
      split at h
      · cases h
      · cases h
        refine ⟨n.toNat, ?_, ?_⟩
        · rw [eq_of_toInt? hn, ← Int.cast_natCast, Int.toNat_of_nonneg (not_lt.1 hneg)]
        · rw [natFactorial_eq]

/-! Roots and logarithms. -/

theorem eq_sq_of_isSquare {k : ℤ} (h : isSquare k = true) : (k : ℝ) = (k.toNat.sqrt : ℝ) ^ 2 := by
  rw [isSquare, Bool.and_eq_true, decide_eq_true_iff, decide_eq_true_iff] at h
  have hcast : ((k.toNat : ℤ) : ℝ) = k := by rw [Int.toNat_of_nonneg h.1]
  rw [← hcast, sq]
  exact_mod_cast h.2.symm

theorem sqrt_eq_some (h : sqrt (some q) = .ok (some r)) : (r : ℝ) = √q := by
  by_cases hneg : q < 0
  · rw [sqrt, if_pos hneg] at h
    cases h
  · rw [sqrt, if_neg hneg] at h
    by_cases hsquare : (isSquare q.num && isSquare q.den) = true
    · rw [if_pos hsquare] at h
      rw [Bool.and_eq_true] at hsquare
      rw [← Option.some.inj (Except.ok.inj h), Rat.mkRat_eq_div, Rat.cast_def q,
        ← Int.cast_natCast q.den, eq_sq_of_isSquare hsquare.1, eq_sq_of_isSquare hsquare.2, ← div_pow,
        Real.sqrt_sq (by positivity)]
      push_cast
      rfl
    · rw [if_neg hsquare] at h
      cases h

theorem eq_of_stripTens (n : ℕ) : n = 10 ^ (stripTens n).1 * (stripTens n).2 := by
  fun_induction stripTens n with
  | case1 => rfl
  | case2 n hn hten k rest hstrip ih =>
    rw [hstrip] at ih
    have hsplit : n = 10 * (n / 10) := by omega
    rw [hsplit, ih]
    ring
  | case3 => simp

theorem eq_of_tenExponent? {n k : ℕ} (h : tenExponent? n = some k) : n = 10 ^ k := by
  have hstrip := eq_of_stripTens n
  unfold tenExponent? at h
  dsimp only at h
  split at h
  · rename_i hone
    rw [hone, mul_one, Option.some.inj h] at hstrip
    exact hstrip
  · cases h

/-- An exponent that is found is one of ten, whatever is made of it. -/
theorem exists_exponent {n : ℕ} {f : ℤ → ℚ}
    (h : (do return (↑(← tenExponent? n) : ℤ) : Option ℤ).map f = some r) :
    ∃ k : ℕ, n = 10 ^ k ∧ r = f k := by
  obtain ⟨m, hm, rfl⟩ := Option.map_eq_some_iff.1 h
  obtain ⟨k, hk, hkm⟩ := Option.bind_eq_some_iff.1 hm
  obtain rfl : (k : ℤ) = m := Option.some.inj hkm
  exact ⟨k, eq_of_tenExponent? hk, rfl⟩

theorem ln_eq_some (h : ln (some q) = .ok (some r)) : (r : ℝ) = Real.log q := by
  by_cases hpos : q ≤ 0
  · rw [ln, if_pos hpos] at h
    cases h
  · rw [ln, if_neg hpos] at h
    by_cases hone : q = 1
    · rw [if_pos hone] at h
      cases h
      simp [hone]
    · rw [if_neg hone] at h
      cases h

theorem log_ten_ne_zero : Real.log 10 ≠ 0 :=
  Real.log_ne_zero_of_pos_of_ne_one (by norm_num) (by norm_num)

/-- A decimal logarithm that is found is an integer. -/
theorem exists_zpow_of_log (h : log (some q) = .ok (some r)) : ∃ k : ℤ, r = k ∧ q = 10 ^ k := by
  by_cases hpos : q ≤ 0
  · rw [log, if_pos hpos] at h
    cases h
  · rw [log, if_neg hpos] at h
    by_cases hden : q.den = 1
    · rw [if_pos hden] at h
      obtain ⟨k, hk, rfl⟩ := exists_exponent (Except.ok.inj h)
      have hnum : (0 : ℤ) ≤ q.num := Rat.num_nonneg.2 (not_le.1 hpos).le
      refine ⟨k, rfl, ?_⟩
      rw [← Rat.num_div_den q, hden, Nat.cast_one, div_one, ← Int.toNat_of_nonneg hnum, hk,
        zpow_natCast]
      push_cast
      rfl
    · rw [if_neg hden] at h
      by_cases hnum : q.num = 1
      · rw [if_pos hnum] at h
        obtain ⟨k, hk, rfl⟩ := exists_exponent (Except.ok.inj h)
        refine ⟨-k, rfl, ?_⟩
        rw [← Rat.num_div_den q, hnum, Int.cast_one, one_div, hk, zpow_neg, zpow_natCast]
        push_cast
        rfl
      · rw [if_neg hnum] at h
        cases h

theorem log_eq_some (h : log (some q) = .ok (some r)) : (r : ℝ) = Real.log q / Real.log 10 := by
  obtain ⟨k, rfl, rfl⟩ := exists_zpow_of_log h
  rw [eq_div_iff log_ten_ne_zero]
  push_cast
  rw [Real.log_zpow]

/-! Angles. -/

theorem eq_of_only {x y : ℚ} (h : only x y (some q) = some r) : q = x ∧ r = y := by
  unfold only at h
  split at h
  · rename_i hx
    exact ⟨Option.some.inj hx, (Option.some.inj h).symm⟩
  · cases h

/-- A number of which a fraction is an integer. -/
theorem eq_mul_num {d : ℚ} (hd : d ≠ 0) (h : (q / d).den = 1) : (q : ℝ) = d * (q / d).num := by
  have hq : q = d * (q / d).num := by
    rw [(Rat.den_eq_one_iff _).1 h]
    field_simp
  exact_mod_cast hq

theorem sineOfTwelfth_eq_some {m : ℕ} (h : sineOfTwelfth m = some r) :
    (r : ℝ) = Real.sin (m * (Real.pi / 6)) := by
  unfold sineOfTwelfth at h
  split at h
  · cases h
    simp
  · cases h
    simp [Real.sin_pi_div_six]
  · cases h
    rw [show ((3 : ℕ) : ℝ) * (Real.pi / 6) = Real.pi / 2 by push_cast; ring, Real.sin_pi_div_two]
    norm_num
  · cases h
    rw [show ((5 : ℕ) : ℝ) * (Real.pi / 6) = Real.pi - Real.pi / 6 by push_cast; ring,
      Real.sin_pi_sub, Real.sin_pi_div_six]
    norm_num
  · cases h
    rw [show ((6 : ℕ) : ℝ) * (Real.pi / 6) = Real.pi by push_cast; ring, Real.sin_pi]
    norm_num
  · cases h
    rw [show ((7 : ℕ) : ℝ) * (Real.pi / 6) = Real.pi / 6 + Real.pi by push_cast; ring,
      Real.sin_add_pi, Real.sin_pi_div_six]
    norm_num
  · cases h
    rw [show ((9 : ℕ) : ℝ) * (Real.pi / 6) = Real.pi / 2 + Real.pi by push_cast; ring,
      Real.sin_add_pi, Real.sin_pi_div_two]
    norm_num
  · cases h
    rw [show ((11 : ℕ) : ℝ) * (Real.pi / 6) = Real.pi - Real.pi / 6 + Real.pi by push_cast; ring,
      Real.sin_add_pi, Real.sin_pi_sub, Real.sin_pi_div_six]
    norm_num
  · cases h

theorem sinDegrees_eq_some (h : sinDegrees (some q) = some r) :
    (r : ℝ) = Real.sin (radians true q) := by
  by_cases hden : (q / 30).den = 1
  · have hq := eq_mul_num (by norm_num) hden
    unfold sinDegrees at h
    dsimp only at h
    rw [if_pos hden] at h
    generalize (q / 30).num = k at hq h
    have hm : (0 : ℤ) ≤ k % 12 := Int.emod_nonneg k (by norm_num)
    have hk : (k : ℝ) = ((k % 12).toNat : ℕ) + (k / 12 : ℤ) * 12 := by
      have hsplit : k = ((k % 12).toNat : ℕ) + (k / 12) * 12 := by omega
      exact_mod_cast hsplit
    have hangle : radians true q =
        ((k % 12).toNat : ℕ) * (Real.pi / 6) + (k / 12 : ℤ) * (2 * Real.pi) := by
      rw [radians, if_pos rfl, hq, hk]
      push_cast
      ring
    rw [hangle, Real.sin_add_int_mul_two_pi]
    exact sineOfTwelfth_eq_some h
  · unfold sinDegrees at h
    dsimp only at h
    rw [if_neg hden] at h
    cases h

theorem cosDegrees_eq_some (h : cosDegrees (some q) = some r) :
    (r : ℝ) = Real.cos (radians true q) := by
  rw [sinDegrees_eq_some h, ← Real.sin_add_pi_div_two]
  congr 1
  rw [radians, radians, if_pos rfl, if_pos rfl]
  push_cast
  ring

theorem tanDegrees_eq_some (h : tanDegrees (some q) = .ok (some r)) :
    (r : ℝ) = Real.tan (radians true q) := by
  by_cases hden : (q / 45).den = 1
  · have hq := eq_mul_num (by norm_num) hden
    unfold tanDegrees at h
    dsimp only at h
    rw [if_neg (not_not.2 hden)] at h
    generalize (q / 45).num = k at hq h
    have hk : (k : ℝ) = ((k % 4).toNat : ℕ) + (k / 4 : ℤ) * 4 := by
      have hsplit : k = ((k % 4).toNat : ℕ) + (k / 4) * 4 := by omega
      exact_mod_cast hsplit
    have hangle : radians true q =
        ((k % 4).toNat : ℕ) * (Real.pi / 4) + (k / 4 : ℤ) * Real.pi := by
      rw [radians, if_pos rfl, hq, hk]
      push_cast
      ring
    rw [hangle, Real.tan_add_int_mul_pi]
    have hm : (k % 4).toNat < 4 := by omega
    generalize (k % 4).toNat = m at h hm
    interval_cases m
    · cases h
      simp
    · cases h
      simp [Real.tan_pi_div_four]
    · cases h
    · cases h
      rw [show ((3 : ℕ) : ℝ) * (Real.pi / 4) = Real.pi - Real.pi / 4 by push_cast; ring,
        Real.tan_pi_sub, Real.tan_pi_div_four]
      norm_num
  · unfold tanDegrees at h
    dsimp only at h
    rw [if_pos hden] at h
    cases h

theorem arcsin_half : Real.arcsin (1 / 2) = Real.pi / 6 := by
  apply Real.arcsin_eq_of_sin_eq Real.sin_pi_div_six
  constructor <;> linarith [Real.pi_pos]

theorem arcsinDegrees_eq_some (h : arcsinDegrees (some q) = .ok (some r)) :
    (r : ℝ) = ofRadians true (Real.arcsin q) := by
  have hpi := Real.pi_ne_zero
  obtain ⟨-, -, h⟩ := bind_eq_ok_iff.1 h
  have h := Except.ok.inj h
  rw [Option.bind_some] at h
  rw [ofRadians, if_pos rfl]
  split_ifs at h with hq hq hq hq hq
  · cases h
    rw [hq]
    push_cast
    rw [Real.arcsin_neg_one]
    field_simp
    norm_num
  · cases h
    rw [hq]
    push_cast
    rw [neg_div, Real.arcsin_neg, arcsin_half]
    field_simp
    norm_num
  · cases h
    simp [hq]
  · cases h
    rw [hq]
    push_cast
    rw [arcsin_half]
    field_simp
    norm_num
  · cases h
    rw [hq]
    push_cast
    rw [Real.arcsin_one]
    field_simp
    norm_num

theorem arccosDegrees_eq_some (h : arccosDegrees (some q) = .ok (some r)) :
    (r : ℝ) = ofRadians true (Real.arccos q) := by
  obtain ⟨a, ha, h⟩ := bind_eq_ok_iff.1 h
  obtain ⟨s, rfl, rfl⟩ := Option.map_eq_some_iff.1 (Except.ok.inj h)
  have hpi := Real.pi_ne_zero
  have hs := arcsinDegrees_eq_some ha
  rw [ofRadians, if_pos rfl] at hs ⊢
  rw [Real.arccos_eq_pi_div_two_sub_arcsin]
  push_cast
  rw [hs]
  field_simp
  ring

theorem arctanDegrees_eq_some (h : arctanDegrees (some q) = some r) :
    (r : ℝ) = ofRadians true (Real.arctan q) := by
  have hpi := Real.pi_ne_zero
  rw [arctanDegrees, Option.bind_some] at h
  rw [ofRadians, if_pos rfl]
  split_ifs at h with hq hq hq
  · cases h
    rw [hq]
    push_cast
    rw [Real.arctan_neg, Real.arctan_one]
    field_simp
    norm_num
  · cases h
    simp [hq]
  · cases h
    rw [hq]
    push_cast
    rw [Real.arctan_one]
    field_simp
    norm_num

theorem apply_radians_eq_some {f : FunctionName} (h : apply false f (some q) = .ok (some r)) :
    (r : ℝ) = f.value false q := by
  cases f with
  | ln => exact ln_eq_some h
  | log => exact log_eq_some h
  | exp | sin | cos | tan | arctan =>
    obtain ⟨rfl, rfl⟩ := eq_of_only (Except.ok.inj h)
    simp [FunctionName.value, radians, ofRadians]
  | arcsin | arccos =>
    obtain ⟨-, -, h⟩ := bind_eq_ok_iff.1 h
    obtain ⟨rfl, rfl⟩ := eq_of_only (Except.ok.inj h)
    simp [FunctionName.value, ofRadians]

theorem apply_degrees_eq_some {f : FunctionName} (h : apply true f (some q) = .ok (some r)) :
    (r : ℝ) = f.value true q := by
  cases f with
  | ln => exact ln_eq_some h
  | log => exact log_eq_some h
  | exp => exact apply_radians_eq_some (f := .exp) h
  | sin => exact sinDegrees_eq_some (Except.ok.inj h)
  | cos => exact cosDegrees_eq_some (Except.ok.inj h)
  | tan => exact tanDegrees_eq_some h
  | arcsin => exact arcsinDegrees_eq_some h
  | arccos => exact arccosDegrees_eq_some h
  | arctan => exact arctanDegrees_eq_some (Except.ok.inj h)

/-- Whatever a named function gives exactly is what it is on real numbers. -/
theorem apply_eq_some {degrees : Bool} {f : FunctionName}
    (h : apply degrees f a = .ok (some r)) : ∃ q, a = some q ∧ (r : ℝ) = f.value degrees q := by
  cases a with
  | none => cases f <;> cases degrees <;> cases h
  | some q =>
    use q, rfl
    cases degrees with
    | true => exact apply_degrees_eq_some h
    | false => exact apply_radians_eq_some h

end Exact

end Reckoner
