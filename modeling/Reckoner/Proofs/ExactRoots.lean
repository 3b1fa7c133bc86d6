import Mathlib.Analysis.SpecialFunctions.Log.Base
import Mathlib.Data.Rat.Lemmas
import Mathlib.NumberTheory.Real.Irrational
import Reckoner.Proofs.ExactFunctions
/-!
Roots and logarithms are found whenever there are any. A fraction is a square just if its two halves are,
so that an exact root is missed only where no fraction is one; and a fraction whose decimal logarithm is
rational is a power of ten with an integer exponent, so that an exact logarithm is missed only where it
is irrational (`sqrt_log_complete`).
-/
namespace Reckoner.Exact

variable {q r : ℚ} {n k b : ℕ}

/-! Roots. -/

theorem isSquare_iff (k : ℤ) : isSquare k = true ↔ IsSquare k := by
  rw [isSquare, Bool.and_eq_true, decide_eq_true_iff, decide_eq_true_iff]
  constructor
  · rintro ⟨hk, hsquare⟩
    rw [← Int.toNat_of_nonneg hk, Int.isSquare_natCast_iff]
    exact ⟨_, hsquare.symm⟩
  · intro hsquare
    have hk : 0 ≤ k := hsquare.nonneg
    rw [← Int.toNat_of_nonneg hk, Int.isSquare_natCast_iff] at hsquare
    obtain ⟨m, hm⟩ := hsquare
    exact ⟨hk, (Nat.exists_mul_self k.toNat).1 ⟨m, hm.symm⟩⟩

/-- Both halves of a square are squares, and of nothing else. -/
theorem isSquare_halves_iff (q : ℚ) : (isSquare q.num && isSquare q.den) = true ↔ IsSquare q := by
  rw [Bool.and_eq_true, isSquare_iff, isSquare_iff, Int.isSquare_natCast_iff, Rat.isSquare_iff]

theorem exists_sqrt (h : IsSquare q) : ∃ r, sqrt (some q) = .ok (some r) := by
  rw [sqrt, if_neg (not_lt.2 h.nonneg), if_pos ((isSquare_halves_iff q).2 h)]
  exact ⟨_, rfl⟩

theorem sqrt_of_not_isSquare (hq : 0 ≤ q) (h : ¬ IsSquare q) : sqrt (some q) = .ok none := by
  rw [sqrt, if_neg (not_lt.2 hq), if_neg (mt (isSquare_halves_iff q).1 h)]

theorem mul_self_of_sqrt (hq : 0 ≤ q) (h : sqrt (some q) = .ok (some r)) : 0 ≤ r ∧ r * r = q := by
  have hr : (r : ℝ) = √q := sqrt_eq_some h
  constructor
  · exact_mod_cast hr ▸ Real.sqrt_nonneg q
  · have hq' : (0 : ℝ) ≤ q := by exact_mod_cast hq
    have hmul : (r : ℝ) * r = q := by rw [hr, Real.mul_self_sqrt hq']
    exact_mod_cast hmul

theorem sqrt_eq_some_iff (hq : 0 ≤ q) : sqrt (some q) = .ok (some r) ↔ 0 ≤ r ∧ r * r = q := by
  constructor
  · exact mul_self_of_sqrt hq
  · rintro ⟨hr, rfl⟩
    obtain ⟨s, hs⟩ := exists_sqrt ⟨r, rfl⟩
    obtain ⟨hs_nonneg, hmul⟩ := mul_self_of_sqrt hq hs
    rw [hs, (mul_self_inj hs_nonneg hr).1 hmul]

theorem sqrt_eq_none_iff (hq : 0 ≤ q) : sqrt (some q) = .ok none ↔ ¬ ∃ r, r * r = q := by
  constructor
  · rintro h ⟨r, rfl⟩
    obtain ⟨s, hs⟩ := exists_sqrt ⟨r, rfl⟩
    cases h.symm.trans hs
  · intro h
    exact sqrt_of_not_isSquare hq fun ⟨r, hr⟩ => h ⟨r, hr.symm⟩

/-! Powers of ten. -/

theorem natCast_ten_pow (k : ℕ) : ((10 ^ k : ℕ) : ℚ) = 10 ^ k := by
  push_cast
  rfl

theorem stripTens_ten_pow (k : ℕ) : stripTens (10 ^ k) = (k, 1) := by
  induction k with
  | zero => rw [pow_zero, stripTens, if_neg one_ne_zero, if_neg (by decide)]
  | succ k ih =>
    have hdvd : 10 ^ (k + 1) % 10 = 0 := by rw [Nat.pow_succ, Nat.mul_mod_left]
    have hdiv : 10 ^ (k + 1) / 10 = 10 ^ k := by
      rw [Nat.pow_succ, Nat.mul_div_cancel _ (by decide)]
    rw [stripTens, if_neg (by positivity), if_pos hdvd, hdiv, ih]

theorem tenExponent?_ten_pow (k : ℕ) : tenExponent? (10 ^ k) = some k := by
  rw [tenExponent?, stripTens_ten_pow]
  rfl

/-- A number of which a power is one of ten is a power of ten: if it is not one, both 2 and 5 divide it,
and a tenth of it is again such a number. -/
theorem exists_ten_pow_of_pow (hb : b ≠ 0) (h : n ^ b = 10 ^ k) : ∃ j, n = 10 ^ j := by
  induction n using Nat.strongRecOn generalizing k with
  | ind n ih =>
    by_cases hone : n = 1
    · exact ⟨0, hone⟩
    · have hk : k ≠ 0 := by
        rintro rfl
        exact hone (by simpa [hb] using h)
      have hten : ∀ p, p.Prime → p ∣ 10 → p ∣ n := fun p hp hdvd =>
        hp.dvd_of_dvd_pow (h ▸ dvd_pow hdvd hk)
      have hcoprime : Nat.Coprime 2 5 := by decide
      obtain ⟨m, rfl⟩ : 10 ∣ n := hcoprime.mul_dvd_of_dvd_of_dvd
        (hten 2 Nat.prime_two (by decide)) (hten 5 Nat.prime_five (by decide))
      have hm : m ≠ 0 := by
        rintro rfl
        rw [Nat.mul_zero, zero_pow hb] at h
        exact absurd h (by positivity)
      have hle : b ≤ k := by
        have hpow : 10 ^ b ∣ 10 ^ k := by
          rw [← h, mul_pow]
          exact dvd_mul_right _ _
        exact (Nat.pow_dvd_pow_iff_le_right (by norm_num)).1 hpow
      have hrest : m ^ b = 10 ^ (k - b) := by
        apply Nat.eq_of_mul_eq_mul_left (by positivity : 0 < 10 ^ b)
        rw [← mul_pow, h, ← pow_add, Nat.add_sub_cancel' hle]
      obtain ⟨j, rfl⟩ := ih m (by omega) hrest
      exact ⟨j + 1, (pow_succ' 10 j).symm⟩

/-- A fraction of which a power is a power of ten without a fraction has none itself. -/
theorem exists_pow_of_pow (hq : 0 < q) (hb : b ≠ 0) (h : q ^ b = 10 ^ k) : ∃ j : ℕ, q = 10 ^ j := by
  have hcast : q ^ b = ((10 ^ k : ℕ) : ℚ) := h.trans (natCast_ten_pow k).symm
  have hden : q.den = 1 := by
    have hpow := congrArg Rat.den hcast
    rw [Rat.den_pow, Rat.den_natCast] at hpow
    exact (Nat.pow_eq_one.1 hpow).resolve_right hb
  obtain ⟨n, rfl⟩ : ∃ n : ℕ, q = n := by
    refine ⟨q.num.toNat, ?_⟩
    rw [← Int.cast_natCast, Int.toNat_of_nonneg (Rat.num_nonneg.2 hq.le)]
    exact ((Rat.den_eq_one_iff q).1 hden).symm
  have hnat : n ^ b = 10 ^ k := by exact_mod_cast hcast
  obtain ⟨j, rfl⟩ := exists_ten_pow_of_pow hb hnat
  exact ⟨j, natCast_ten_pow j⟩

/-- A fraction of which a power is a power of ten is a power of ten. -/
theorem exists_zpow_of_pow (hq : 0 < q) (hb : b ≠ 0) {m : ℤ} (h : q ^ b = 10 ^ m) :
    ∃ j : ℤ, q = 10 ^ j := by
  rcases Int.natAbs_eq m with hm | hm
  · rw [hm, zpow_natCast] at h
    obtain ⟨j, hj⟩ := exists_pow_of_pow hq hb h
    exact ⟨j, by rw [hj, zpow_natCast]⟩
  · rw [hm, zpow_neg, zpow_natCast, ← inv_eq_iff_eq_inv, ← inv_pow] at h
    obtain ⟨j, hj⟩ := exists_pow_of_pow (inv_pos.2 hq) hb h
    exact ⟨-j, by rw [zpow_neg, zpow_natCast, ← hj, inv_inv]⟩

/-! Logarithms. -/

theorem log_ten_pow (k : ℕ) : log (some (10 ^ k)) = .ok (some (k : ℚ)) := by
  have hpos : ¬ ((10 ^ k : ℕ) : ℚ) ≤ 0 := not_le.2 (by positivity)
  rw [← natCast_ten_pow, log, if_neg hpos, if_pos (Rat.den_natCast _), Rat.num_natCast, Int.toNat_natCast,
    tenExponent?_ten_pow]
  rfl

theorem log_inv_ten_pow (hk : k ≠ 0) : log (some (10 ^ k)⁻¹) = .ok (some (-k : ℚ)) := by
  have hpos : 0 < 10 ^ k := by positivity
  have hinv : ¬ ((10 ^ k : ℕ) : ℚ)⁻¹ ≤ 0 := not_le.2 (by positivity)
  have hden : ((10 ^ k : ℕ) : ℚ)⁻¹.den = 10 ^ k := Rat.inv_natCast_den_of_pos hpos
  have hne : ¬ 10 ^ k = 1 := (Nat.one_lt_pow hk (by decide)).ne'
  rw [← natCast_ten_pow, log, if_neg hinv, hden, if_neg hne, if_pos (Rat.inv_natCast_num_of_pos hpos),
    tenExponent?_ten_pow]
  simp

theorem log_ten_zpow (k : ℤ) : log (some (10 ^ k)) = .ok (some (k : ℚ)) := by
  obtain ⟨m, rfl | rfl⟩ := k.eq_nat_or_neg
  · rw [zpow_natCast, log_ten_pow, Int.cast_natCast]
  · by_cases hm : m = 0
    · rw [hm]
      exact log_ten_pow 0
    · rw [zpow_neg, zpow_natCast, log_inv_ten_pow hm, Int.cast_neg, Int.cast_natCast]

theorem log_eq_some_iff : log (some q) = .ok (some r) ↔ ∃ k : ℤ, r = k ∧ (10 : ℚ) ^ k = q := by
  constructor
  · intro h
    obtain ⟨k, hr, hq⟩ := exists_zpow_of_log h
    exact ⟨k, hr, hq.symm⟩
  · rintro ⟨k, rfl, rfl⟩
    exact log_ten_zpow k

theorem exists_log (hq : 0 < q) : ∃ b, log (some q) = .ok b := by
  rw [log, if_neg (not_le.2 hq)]
  split_ifs <;> exact ⟨_, rfl⟩

/-- A decimal logarithm that is rational is an integer. -/
theorem irrational_logb_iff (hq : 0 < q) :
    Irrational (Real.logb 10 q) ↔ ¬ ∃ k : ℤ, (10 : ℚ) ^ k = q := by
  rw [Irrational, not_iff_not]
  have hq' : (0 : ℝ) < q := by exact_mod_cast hq
  constructor
  · rintro ⟨s, hs⟩
    have hrpow : (10 : ℝ) ^ (s : ℝ) = q :=
      (Real.logb_eq_iff_rpow_eq (by norm_num) (by norm_num) hq').1 hs.symm
    have hpow : (q : ℝ) ^ s.den = (10 : ℝ) ^ s.num := by
      rw [← hrpow, ← Real.rpow_natCast, ← Real.rpow_mul (by norm_num), ← Real.rpow_intCast]
      congr 1
      exact_mod_cast Rat.mul_den_eq_num s
    have hrat : q ^ s.den = (10 : ℚ) ^ s.num := by
      apply Rat.cast_injective (α := ℝ)
      push_cast
      exact hpow
    obtain ⟨j, hj⟩ := exists_zpow_of_pow hq s.den_nz hrat
    exact ⟨j, hj.symm⟩
  · rintro ⟨k, rfl⟩
    refine ⟨k, ?_⟩
    push_cast
    rw [← Real.rpow_intCast, Real.logb_rpow (by norm_num) (by norm_num)]

theorem log_eq_none_iff (hq : 0 < q) : log (some q) = .ok none ↔ Irrational (Real.logb 10 q) := by
  rw [irrational_logb_iff hq]
  obtain ⟨b, hb⟩ := exists_log hq
  constructor
  · rintro h ⟨k, hk⟩
    cases h.symm.trans (log_eq_some_iff.2 ⟨k, rfl, hk⟩)
  · intro h
    cases b with
    | none => exact hb
    | some r =>
      obtain ⟨k, -, hk⟩ := log_eq_some_iff.1 hb
      exact absurd ⟨k, hk⟩ h

/-! Turns. -/

/-- Takes tens off a number, turn by turn, while ten divides it; nothing, if that takes more turns than
it is given. -/
def stripWithin : ℕ → ℕ → ℕ → Option (ℕ × ℕ)
  | 0, _, _ => none
  | turns + 1, taken, n =>
    if n % 10 = 0 then stripWithin turns (taken + 1) (n / 10) else some (taken, n)

theorem stripWithin_zero (turns taken : ℕ) : stripWithin turns taken 0 = none := by
  induction turns generalizing taken with
  | zero => rfl
  | succ turns ih => exact ih (taken + 1)

theorem exists_stripWithin (hn : n ≠ 0) (taken : ℕ) :
    ∃ turns, stripWithin turns taken n = some (taken + (stripTens n).1, (stripTens n).2) := by
  fun_induction stripTens n generalizing taken with
  | case1 => exact absurd rfl hn
  | case2 n _ hten k rest hstrip ih =>
    obtain ⟨turns, hturns⟩ := ih (by omega) (taken + 1)
    rw [hstrip] at hturns
    refine ⟨turns + 1, ?_⟩
    rw [stripWithin, if_pos hten, hturns, Nat.add_right_comm]
    rfl
  | case3 n _ hten => exact ⟨1, by rw [stripWithin, if_neg hten]; rfl⟩

/-- Exact roots and logarithms are found exactly when they exist: the root of a fraction is the fraction
whose square it is, and the decimal logarithm the integer whose power of ten it is. Tens are taken off
numerators and denominators of positive fractions only, which takes finitely many turns; off zero
they could be taken without end. -/
theorem sqrt_log_complete (q : ℚ) :
    (0 ≤ q → (∀ r, sqrt (some q) = .ok (some r) ↔ 0 ≤ r ∧ r * r = q) ∧
      (sqrt (some q) = .ok none ↔ ¬ ∃ r, r * r = q)) ∧
    (0 < q → (∀ r, log (some q) = .ok (some r) ↔ ∃ k : ℤ, r = k ∧ (10 : ℚ) ^ k = q) ∧
      (log (some q) = .ok none ↔ Irrational (Real.logb 10 q)) ∧
      (∃ turns, stripWithin turns 0 q.num.toNat = some (stripTens q.num.toNat)) ∧
      ∃ turns, stripWithin turns 0 q.den = some (stripTens q.den)) ∧
    ∀ turns, stripWithin turns 0 0 = none := by
  have hends : ∀ n, n ≠ 0 → ∃ turns, stripWithin turns 0 n = some (stripTens n) := by
    intro n hn
    obtain ⟨turns, h⟩ := exists_stripWithin hn 0
    rw [Nat.zero_add] at h
    exact ⟨turns, h⟩
  refine ⟨fun hq => ⟨fun r => sqrt_eq_some_iff hq, sqrt_eq_none_iff hq⟩, fun hq => ?_,
    fun turns => stripWithin_zero turns 0⟩
  have hnum : q.num.toNat ≠ 0 := by
    have := Rat.num_pos.2 hq
    omega
  exact ⟨fun r => log_eq_some_iff, log_eq_none_iff hq, hends _ hnum, hends _ q.den_nz⟩

end Reckoner.Exact
