import Reckoner.Proofs.BinaryValue
import Reckoner.Proofs.ExactFunctions
/-!
How many bits exact values have. The bits of a power lie between multiples of the bits of its base, so that
an estimate from the longer half of a fraction decides whether a power is computed at all: one that is
given up has more than half the bits of the bound, and none is computed that has more than twice as
many (`pow_guard`).
-/
namespace Reckoner

theorem bitLength_le_of_lt {n k : ℕ} (h : n < 2 ^ k) : bitLength n ≤ k := by
  by_cases hn : n = 0
  · simp [hn, bitLength]
  · have hlt : 2 ^ (bitLength n - 1) < 2 ^ k := (two_pow_le_of_bitLength hn).trans_lt h
    have := (Nat.pow_lt_pow_iff_right Nat.one_lt_two).1 hlt
    omega

theorem bitLength_pow_le (n : ℕ) {k : ℕ} (hk : k ≠ 0) : bitLength (n ^ k) ≤ k * bitLength n := by
  apply bitLength_le_of_lt
  calc n ^ k < (2 ^ bitLength n) ^ k := Nat.pow_lt_pow_left (lt_two_pow_bitLength n) hk
    _ = 2 ^ (k * bitLength n) := by rw [← pow_mul, Nat.mul_comm]

theorem lt_bitLength_pow {n : ℕ} (hn : n ≠ 0) (k : ℕ) : k * (bitLength n - 1) < bitLength (n ^ k) := by
  apply lt_bitLength
  calc 2 ^ (k * (bitLength n - 1)) = (2 ^ (bitLength n - 1)) ^ k := by rw [← pow_mul, Nat.mul_comm]
    _ ≤ n ^ k := Nat.pow_le_pow_left (two_pow_le_of_bitLength hn) k

namespace Exact

variable {limit n : ℤ} {q r : ℚ}

theorem size_inv (q : ℚ) : size q⁻¹ = size q := by
  by_cases hq : q = 0
  · rw [hq, inv_zero]
  · have hnum : q⁻¹.num.natAbs = q.den := by
      rw [Rat.num_inv, Int.natAbs_mul, Int.natAbs_sign_of_ne_zero (Rat.num_ne_zero.2 hq), one_mul,
        Int.natAbs_natCast]
    rw [size, size, hnum, Rat.den_inv_of_ne_zero hq, Nat.add_comm]

theorem size_pow (q : ℚ) (k : ℕ) :
    size (q ^ k) = bitLength (q.num.natAbs ^ k) + bitLength (q.den ^ k) := by
  rw [size, Rat.num_pow, Rat.den_pow, Int.natAbs_pow]

theorem size_zpow (q : ℚ) (n : ℤ) :
    size (q ^ n) = bitLength (q.num.natAbs ^ n.natAbs) + bitLength (q.den ^ n.natAbs) := by
  rcases Int.natAbs_eq n with hn | hn
  · rw [hn, zpow_natCast, size_pow, Int.natAbs_natCast]
  · rw [hn, zpow_neg, zpow_natCast, size_inv, size_pow, Int.natAbs_neg, Int.natAbs_natCast]

/-- The bits of the longer half of a fraction. -/
def width (q : ℚ) : ℕ := max (bitLength q.num.natAbs) (bitLength q.den)

/-- Of every fraction but 0, 1 and −1, one half has two bits. -/
theorem two_le_width (hzero : q ≠ 0) (hone : q ≠ 1) (hminus : q ≠ -1) : 2 ≤ width q := by
  by_contra hwidth
  have hshort : ∀ n, bitLength n ≤ width q → n < 2 ^ 1 := fun n hn =>
    (lt_two_pow_bitLength n).trans_le (Nat.pow_le_pow_right Nat.two_pos (by omega))
  have hnum : q.num.natAbs < 2 ^ 1 := hshort _ (le_max_left _ _)
  have hden : q.den < 2 ^ 1 := hshort _ (le_max_right _ _)
  have hden_one : q.den = 1 := by
    have := q.den_pos
    omega
  have hq : q = q.num := ((Rat.den_eq_one_iff q).1 hden_one).symm
  have hne : q.num ≠ 0 := Rat.num_ne_zero.2 hzero
  rcases (by omega : q.num = 1 ∨ q.num = -1) with h | h
  · exact hone (by rw [hq, h]; norm_num)
  · exact hminus (by rw [hq, h]; norm_num)

theorem size_zpow_le (q : ℚ) (hn : n ≠ 0) : size (q ^ n) ≤ 2 * (n.natAbs * width q) := by
  have hk : n.natAbs ≠ 0 := Int.natAbs_ne_zero.2 hn
  have hnum : bitLength (q.num.natAbs ^ n.natAbs) ≤ n.natAbs * width q :=
    (bitLength_pow_le _ hk).trans (Nat.mul_le_mul_left _ (le_max_left _ _))
  have hden : bitLength (q.den ^ n.natAbs) ≤ n.natAbs * width q :=
    (bitLength_pow_le _ hk).trans (Nat.mul_le_mul_left _ (le_max_right _ _))
  rw [size_zpow]
  omega

/-- A power of a number but 0, 1 and −1 has at least half the bits of the estimate. -/
theorem lt_size_zpow (hzero : q ≠ 0) (hone : q ≠ 1) (hminus : q ≠ -1) (n : ℤ) :
    n.natAbs * width q < 2 * size (q ^ n) := by
  have hnum := lt_bitLength_pow (Int.natAbs_ne_zero.2 (Rat.num_ne_zero.2 hzero)) n.natAbs
  have hden := lt_bitLength_pow q.den_nz n.natAbs
  have hwidth : n.natAbs * (width q - 1) < size (q ^ n) := by
    rw [size_zpow]
    rcases max_choice (bitLength q.num.natAbs) (bitLength q.den) with h | h
    · rw [width, h]
      omega
    · rw [width, h]
      omega
  have hhalf : width q ≤ 2 * (width q - 1) := by
    have := two_le_width hzero hone hminus
    omega
  calc n.natAbs * width q ≤ n.natAbs * (2 * (width q - 1)) := Nat.mul_le_mul_left _ hhalf
    _ = 2 * (n.natAbs * (width q - 1)) := by ring
    _ < 2 * size (q ^ n) := by omega

theorem toInt?_intCast (n : ℤ) : toInt? (some (n : ℚ)) = some n := by
  rw [toInt?, if_pos (Rat.den_intCast n), Rat.num_intCast]

/-- `pow` with another way to compute the powers that are not known beforehand. -/
def powBy (power : ℚ → ℤ → ℚ) (limit : ℤ) (base exponent : Option ℚ) :
    Except ArithmeticError (Option ℚ) :=
  match base, toInt? exponent with
  | some q, some n =>
    if q = 0 && n < 0 then .error .divisionByZero
    else if n = 0 || q = 1 then .ok (some 1)
    else if q = 0 then .ok (some 0)
    else if q = -1 then .ok (some (if n % 2 = 0 then 1 else -1))
    else if limit < n.natAbs * max (bitLength q.num.natAbs) (bitLength q.den) then .ok none
    else .ok (bounded limit (power q n))
  | _, _ => .ok none

theorem pow_eq_powBy (limit : ℤ) (a b : Option ℚ) : pow limit a b = powBy intPower limit a b := rfl

/-- Powers that are known for every exponent. -/
def IsKnown (q : ℚ) (n : ℤ) : Prop := q = 0 ∨ q = 1 ∨ q = -1 ∨ n = 0

theorem powBy_of_isKnown (power : ℚ → ℤ → ℚ) (limit : ℤ) (h : IsKnown q n) :
    powBy power limit (some q) (some (n : ℚ)) =
      if q = 0 ∧ n < 0 then .error .divisionByZero else .ok (some (q ^ n)) := by
  unfold powBy
  rw [toInt?_intCast]
  dsimp only
  rcases h with rfl | rfl | rfl | rfl
  · rcases lt_trichotomy n 0 with hn | rfl | hn
    · simp [hn]
    · simp
    · simp [hn.not_gt, hn.ne', zero_zpow n hn.ne']
  · simp
  · by_cases hn : n = 0
    · simp [hn]
    · have hne : (-1 : ℚ) ≠ 1 := by norm_num
      rcases Int.even_or_odd n with heven | hodd
      · simp [hn, Int.even_iff.1 heven, heven.neg_one_zpow]
      · simp [hn, hne, Int.odd_iff.1 hodd, hodd.neg_one_zpow]
  · simp

theorem powBy_of_not_isKnown (power : ℚ → ℤ → ℚ) (limit : ℤ) (h : ¬ IsKnown q n) :
    powBy power limit (some q) (some (n : ℚ)) =
      if limit < n.natAbs * width q then .ok none else .ok (bounded limit (power q n)) := by
  simp only [IsKnown, not_or] at h
  obtain ⟨hzero, hone, hminus, hn⟩ := h
  unfold powBy
  rw [toInt?_intCast]
  dsimp only
  rw [if_neg (by simp [hzero]), if_neg (by simp [hone, hn]), if_neg hzero, if_neg hminus]
  rfl

/-- Powers of more than twice as many bits as the bound are not computed: the outcome is the same whatever
they are taken to be. -/
theorem powBy_eq_pow (power : ℚ → ℤ → ℚ) (h : (size (q ^ n) : ℤ) ≤ 2 * limit → power q n = q ^ n) :
    powBy power limit (some q) (some (n : ℚ)) = pow limit (some q) (some (n : ℚ)) := by
  rw [pow_eq_powBy]
  by_cases hknown : IsKnown q n
  · rw [powBy_of_isKnown _ _ hknown, powBy_of_isKnown _ _ hknown]
  · rw [powBy_of_not_isKnown _ _ hknown, powBy_of_not_isKnown _ _ hknown]
    by_cases hlong : limit < n.natAbs * width q
    · rw [if_pos hlong, if_pos hlong]
    · have hn : n ≠ 0 := fun hn => hknown (.inr (.inr (.inr hn)))
      have hsize : (size (q ^ n) : ℤ) ≤ 2 * (n.natAbs * width q) := by
        exact_mod_cast size_zpow_le q hn
      rw [if_neg hlong, if_neg hlong, h (by omega), intPower_eq]

theorem pow_of_isKnown (limit : ℤ) (h : IsKnown q n) :
    pow limit (some q) (some (n : ℚ)) =
      if q = 0 ∧ n < 0 then .error .divisionByZero else .ok (some (q ^ n)) :=
  powBy_of_isKnown intPower limit h

theorem pow_of_not_isKnown (limit : ℤ) (h : ¬ IsKnown q n) :
    pow limit (some q) (some (n : ℚ)) = .ok (some (q ^ n)) ∧ (size (q ^ n) : ℤ) ≤ limit ∨
      pow limit (some q) (some (n : ℚ)) = .ok none ∧ limit < 2 * (size (q ^ n) : ℤ) := by
  rw [pow_eq_powBy, powBy_of_not_isKnown _ _ h, intPower_eq]
  simp only [IsKnown, not_or] at h
  obtain ⟨hzero, hone, hminus, -⟩ := h
  by_cases hlong : limit < n.natAbs * width q
  · have hsize : (n.natAbs * width q : ℤ) < 2 * size (q ^ n) := by
      exact_mod_cast lt_size_zpow hzero hone hminus n
    rw [if_pos hlong]
    exact .inr ⟨rfl, hlong.trans hsize⟩
  · rw [if_neg hlong, bounded]
    by_cases hsize : limit < size (q ^ n)
    · rw [if_pos hsize]
      exact .inr ⟨rfl, by omega⟩
    · rw [if_neg hsize]
      exact .inl ⟨rfl, not_lt.1 hsize⟩

/-- An integer power of an exact value, under any bound. A power that is not known beforehand is found, and
has no more bits than the bound, or given up, and has more than half as many; and none is computed that
has more than twice as many. The others are found for every exponent, but for the negative powers of
zero, which are the only ones to fail. -/
theorem pow_guard (limit : ℤ) (q : ℚ) (n : ℤ) :
    (q ≠ 0 → q ≠ 1 → q ≠ -1 → n ≠ 0 →
      pow limit (some q) (some (n : ℚ)) = .ok (some (q ^ n)) ∧ (size (q ^ n) : ℤ) ≤ limit ∨
        pow limit (some q) (some (n : ℚ)) = .ok none ∧ limit < 2 * (size (q ^ n) : ℤ)) ∧
    (∀ power : ℚ → ℤ → ℚ, ((size (q ^ n) : ℤ) ≤ 2 * limit → power q n = q ^ n) →
      powBy power limit (some q) (some (n : ℚ)) = pow limit (some q) (some (n : ℚ))) ∧
    (q = 0 ∨ q = 1 ∨ q = -1 ∨ n = 0 → ¬ (q = 0 ∧ n < 0) →
      pow limit (some q) (some (n : ℚ)) = .ok (some (q ^ n))) ∧
    (∀ e, pow limit (some q) (some (n : ℚ)) = .error e ↔ q = 0 ∧ n < 0 ∧ e = .divisionByZero) ∧
    ArithmeticError.divisionByZero.code = "3003" ∧
    pow limit (some 0) (some 0) = .ok (some 1) := by
  refine ⟨fun hzero hone hminus hn => pow_of_not_isKnown limit ?_, fun power => powBy_eq_pow power,
    fun hknown hpole => ?_, fun e => ?_, rfl, rfl⟩
  · simp [IsKnown, hzero, hone, hminus, hn]
  · rw [pow_of_isKnown limit hknown, if_neg hpole]
  · by_cases hknown : IsKnown q n
    · rw [pow_of_isKnown limit hknown]
      split_ifs with hpole
      · simp [hpole, eq_comm]
      · simp only [false_iff]
        rintro ⟨hq, hn, -⟩
        exact hpole ⟨hq, hn⟩
    · have hzero : q ≠ 0 := fun hq => hknown (.inl hq)
      rcases pow_of_not_isKnown limit hknown with ⟨h, -⟩ | ⟨h, -⟩ <;> simp [h, hzero]

end Exact

end Reckoner
