import Reckoner.Proofs.BoundedRun
import Reckoner.Proofs.DecimalRounding
import Reckoner.Proofs.IntegerTest
/-!
Texts of the numbers of a graph. How precise an approximation a text needs is found from the size of a
rough one. If the number is not much smaller than that, all digits of its text are right, up to a unit of
the last (`render_digits`). A difference of numbers that are close to each other can be much smaller; it
may come out as zero (`render_tinyDifference`).
-/
namespace Reckoner.Reals

variable {kernel : Kernel} {g : Graph} {node digits : ℕ} {bits : ℤ} {cache cache' : Cache BigFloat}
  {x : BigFloat} {s : String}

/-- The bits for so many digits make up for them, and seven are left. -/
theorem ten_pow_le_two_pow_bitsForDigits (digits : ℕ) :
    (10 : ℝ) ^ digits ≤ 2 ^ ((bitsForDigits digits : ℤ) - 7) := by
  have hbits : 333 * digits ≤ 100 * (bitsForDigits digits - 7) := by
    rw [bitsForDigits]
    omega
  have hhundred : 10 ^ 100 ≤ 2 ^ 333 := by
    rw [show 333 = 111 * 3 from rfl, pow_mul]
    norm_num
  have hpow : (10 ^ digits) ^ 100 ≤ (2 ^ (bitsForDigits digits - 7)) ^ 100 :=
    calc (10 ^ digits) ^ 100 = (10 ^ 100) ^ digits := by rw [← pow_mul, ← pow_mul, mul_comm]
      _ ≤ (2 ^ 333) ^ digits := Nat.pow_le_pow_left hhundred digits
      _ = 2 ^ (333 * digits) := (pow_mul _ _ _).symm
      _ ≤ 2 ^ (100 * (bitsForDigits digits - 7)) := Nat.pow_le_pow_right two_pos hbits
      _ = (2 ^ (bitsForDigits digits - 7)) ^ 100 := by rw [← pow_mul, mul_comm]
  have hle : 10 ^ digits ≤ 2 ^ (bitsForDigits digits - 7) :=
    le_of_pow_le_pow_left₀ (by decide) (Nat.zero_le _) hpow
  have hexp : (bitsForDigits digits : ℤ) - 7 = ((bitsForDigits digits - 7 : ℕ) : ℤ) := by
    rw [bitsForDigits]
    omega
  rw [hexp, zpow_natCast]
  exact_mod_cast hle

/-- The precision asked for is what is wanted below the size of the rough approximation. -/
theorem exists_of_approximateBits
    (h : approximateBits kernel g node bits cache = (.ok x, cache')) :
    ∃ r cache₁, approximateTo kernel g node guardBits cache = (.ok r, cache₁) ∧
      approximateTo kernel g node (bits - r.magnitude + guardBits) cache₁ = (.ok x, cache') := by
  obtain ⟨r, cache₁, hr, h⟩ := run_bind_eq_ok_iff.1 h
  refine ⟨r, cache₁, hr, ?_⟩
  split at h
  · rename_i hzero
    rw [BigFloat.magnitude, if_pos hzero, sub_zero]
    exact h
  · exact h

theorem exists_of_render (h : render kernel g node digits cache = (.ok s, cache')) :
    ∃ x, approximateBits kernel g node (bitsForDigits digits) cache = (.ok x, cache') ∧
      Decimal.render digits x = s := by
  obtain ⟨x, cache₁, hx, h⟩ := run_bind_eq_ok_iff.1 h
  cases h
  exact ⟨x, hx, rfl⟩

/-- What a text asks for is within half a unit of its last digit, unless the number is much smaller than
its rough approximation. -/
theorem two_zpow_lt_half_unit {v : ℝ} {magnitude : ℤ} (hv : v ≠ 0)
    (hsize : 2 ^ (magnitude - 38) ≤ |v|) :
    (2 : ℝ) ^ (-((bitsForDigits digits : ℤ) - magnitude + guardBits)) <
      10 ^ (Int.log 10 |v| + 1 - digits) / 2 := by
  have hnext : |v| < 10 ^ (Int.log 10 |v| + 1) :=
    (Decimal.lt_ten_zpow_iff (abs_pos.2 hv)).2 (Int.lt_succ_self _)
  have hten : (0 : ℝ) < 10 ^ digits := by positivity
  rw [zpow_sub₀ (by norm_num), zpow_natCast, div_div, lt_div_iff₀ (by positivity)]
  calc (2 : ℝ) ^ (-((bitsForDigits digits : ℤ) - magnitude + guardBits)) * (10 ^ digits * 2)
      ≤ 2 ^ (-((bitsForDigits digits : ℤ) - magnitude + guardBits)) *
          (2 ^ ((bitsForDigits digits : ℤ) - 7) * 2 ^ (1 : ℤ)) := by
        rw [zpow_one]
        gcongr
        exact ten_pow_le_two_pow_bitsForDigits digits
    _ = 2 ^ (magnitude - 38) := by
        rw [two_zpow_mul, two_zpow_mul, guardBits]
        congr 1
        ring
    _ ≤ |v| := hsize
    _ < 10 ^ (Int.log 10 |v| + 1) := hnext

/-- A number is not much smaller than its rough approximation unless it is small. -/
theorem two_zpow_magnitude_le {r : BigFloat} {v : ℝ} (hr : Within guardBits r.value v)
    (hv : 2 ^ (-38 : ℤ) ≤ |v|) : 2 ^ (r.magnitude - 38) ≤ |v| := by
  by_cases hzero : r.value = 0
  · rwa [BigFloat.magnitude_of_eq_zero (BigFloat.value_eq_zero_iff.1 hzero), zero_sub]
  · have hlow := BigFloat.two_zpow_le_abs_value hzero
    have hapart := (abs_sub_abs_le_abs_sub r.value v).trans hr
    calc (2 : ℝ) ^ (r.magnitude - 38) = 2 ^ (r.magnitude - 1) * 2 ^ (-37 : ℤ) := by
          rw [two_zpow_mul]
          congr 1
          ring
      _ ≤ (|v| + 2 ^ (-guardBits)) * 2 ^ (-37 : ℤ) := by
          gcongr
          linarith
      _ ≤ (|v| + 2 ^ 6 * |v|) * 2 ^ (-37 : ℤ) := by
          have hguard : (2 : ℝ) ^ (-guardBits) = 2 ^ 6 * 2 ^ (-38 : ℤ) := by norm_num [guardBits]
          rw [hguard]
          gcongr
      _ ≤ |v| := by
          rw [← one_add_mul, mul_comm (1 + _), mul_assoc]
          exact mul_le_of_le_one_right (abs_nonneg v) (by norm_num)

/-- The text of a node's number, if both approximations take at most so many steps. -/
def renderWithin (kernel : Kernel) (g : Graph) (steps node digits : ℕ) (cache : Cache BigFloat) :
    Option String :=
  match approximateWithin (g.programs kernel) steps node guardBits cache with
  | some (.ok r, cache) =>
    match approximateWithin (g.programs kernel) steps node
        (bitsForDigits digits - r.magnitude + guardBits) cache with
    | some (.ok x, _) => some (Decimal.render digits x)
    | _ => none
  | _ => none

theorem render_of_within (steps : ℕ) (h : renderWithin kernel g steps node digits cache = some s) :
    (render kernel g node digits cache).1 = .ok s := by
  unfold renderWithin at h
  split at h
  · rename_i r cache₁ hr
    split at h
    · rename_i x cache₂ hx
      have hbits : approximateBits kernel g node (bitsForDigits digits) cache = (.ok x, cache₂) := by
        refine run_bind_eq_ok_iff.2 ⟨r, cache₁, approximate_of_within hr, ?_⟩
        split
        · rename_i hzero
          rw [BigFloat.magnitude, if_pos hzero, sub_zero] at hx
          exact approximate_of_within hx
        · exact approximate_of_within hx
      have hrender : render kernel g node digits cache = (.ok (Decimal.render digits x), cache₂) :=
        run_bind_eq_ok_iff.2 ⟨x, cache₂, hbits, rfl⟩
      rw [hrender]
      exact congrArg Except.ok (Option.some.inj h)
    · cases h
  · cases h

/-- After any questions about a graph. If a node has a value that is not much smaller than a rough
approximation shows, its text to so many digits is less than a unit of the last of these away from it,
counted from the first digit of the value, and is not that of zero. -/
theorem render_digits (hk : kernel.Accurate) (g : Graph) (asked : List (ℕ × ℤ))
    (hdefined : g.IsDefined node) (hdigits : 1 ≤ digits) :
    let cache := afterwards (g.programs kernel) asked (Array.replicate g.size none)
    let v := g.value node
    (2 ^ (-38 : ℤ) ≤ |v| ∨ ∃ r, (approximateTo kernel g node guardBits cache).1 = .ok r ∧
        2 ^ (r.magnitude - 38) ≤ |v|) →
      ∀ s, (render kernel g node digits cache).1 = .ok s →
        |(Decimal.number s : ℝ) - v| < 10 ^ (Int.log 10 |v| + 1 - digits) ∧ s ≠ "0.0" := by
  intro cache v hsize s hs
  have hcached : g.accuracy.Cached cache :=
    (g.accuracy.cached_empty g.size).afterwards (g.keeps_programs hk) asked
  have hanswer : render kernel g node digits cache = (.ok s, (render kernel g node digits cache).2) :=
    Prod.ext hs rfl
  obtain ⟨x, hx, hs⟩ := exists_of_render hanswer
  obtain ⟨r, cache₁, hr, hx⟩ := exists_of_approximateBits hx
  obtain ⟨hrough, hcached⟩ := within_of_approximateTo hk hdefined hcached hr
  have hclose := (within_of_approximateTo hk hdefined hcached hx).1
  have hsize : 2 ^ (r.magnitude - 38) ≤ |v| := by
    rcases hsize with hv | ⟨r', hr', hv⟩
    · exact two_zpow_magnitude_le hrough hv
    · rw [hr] at hr'
      cases hr'
      exact hv
  have hv : v ≠ 0 := abs_pos.1 ((two_zpow_pos _).trans_le hsize)
  have hunit := Decimal.abs_number_render_sub_lt hdigits hv
    (lt_of_le_of_lt hclose (two_zpow_lt_half_unit hv hsize))
  rw [hs] at hunit
  refine ⟨hunit, ?_⟩
  rintro rfl
  have hplace : (10 : ℝ) ^ (Int.log 10 |v| + 1 - digits) ≤ |v| :=
    (Decimal.ten_zpow_le (by omega)).trans ((Decimal.ten_zpow_le_iff (abs_pos.2 hv)).2 le_rfl)
  rw [Decimal.number_zero, Rat.cast_zero, zero_sub, abs_neg] at hunit
  exact absurd hplace (not_le.2 hunit)

/-- `(10 ^ 50 / 3 + 3) - 10 ^ 50 / 3`. -/
def largeDifference : Graph where
  ops := #[.rational (mkRat (10 ^ 50) 3), .rational 3, .add 0 1, .sub 2 0]
  ordered := by decide

/-- Every hypothesis holds of a difference of large numbers, and its text is found. -/
theorem render_digits_largeDifference :
    let cache := afterwards (largeDifference.programs Kernel.ideal) []
      (Array.replicate largeDifference.size none)
    Kernel.ideal.Accurate ∧ largeDifference.IsDefined 3 ∧ largeDifference.value 3 = 3 ∧
      (render Kernel.ideal largeDifference 3 20 cache).1 = .ok "3.0" ∧
      |(Decimal.number "3.0" : ℝ) - 3| < 10 ^ (Int.log 10 (3 : ℝ) + 1 - (20 : ℕ)) := by
  intro cache
  have hvalue : largeDifference.value 3 = 3 := by
    simp [Graph.value_of_lt, largeDifference, Op.value]
  have hdefined : largeDifference.IsDefined 3 := by
    simp [Graph.isDefined_iff, largeDifference, Op.IsDefined, Op.operands]
  have hrender : (render Kernel.ideal largeDifference 3 20 cache).1 = .ok "3.0" :=
    render_of_within 20 (by decide +kernel)
  have hsize : (2 : ℝ) ^ (-38 : ℤ) ≤ |largeDifference.value 3| := by
    rw [hvalue]
    norm_num
  have hdigits := (render_digits Kernel.ideal_accurate largeDifference [] hdefined
    (by decide : 1 ≤ 20) (.inl hsize) "3.0" hrender).1
  rw [hvalue, abs_of_pos (by norm_num : (0 : ℝ) < 3)] at hdigits
  exact ⟨Kernel.ideal_accurate, hdefined, hvalue, hrender, hdigits⟩

/-- `(1 + 10 ^ (-60)) - 1`. -/
def tinyDifference : Graph where
  ops := #[.rational 1, .rational (mkRat 1 (10 ^ 60)), .add 0 1, .rational 1, .sub 2 3]
  ordered := by decide

/-- A difference of numbers that are close to each other, which is not zero, has the text of zero: the
rough approximation finds nothing, and the precise one is no more precise for it. -/
theorem render_tinyDifference :
    (∀ n < 5, tinyDifference.IsDefined n) ∧ tinyDifference.value 4 = 10 ^ (-60 : ℤ) ∧
      (2 : ℝ) ^ (-4094 : ℤ) ≤ |tinyDifference.value 4| ∧
      (render Kernel.ideal tinyDifference 4 12 (Array.replicate tinyDifference.size none)).1 =
        .ok "0.0" ∧
      10 ^ (Int.log 10 |tinyDifference.value 4| + 1 - 12) ≤
        |(Decimal.number "0.0" : ℝ) - tinyDifference.value 4| := by
  have hvalue : tinyDifference.value 4 = 10 ^ (-60 : ℤ) := by
    norm_num [Graph.value_of_lt, tinyDifference, Op.value, Rat.mkRat_eq_div]
  have hsize : |tinyDifference.value 4| = 10 ^ (-60 : ℤ) := by
    rw [hvalue, abs_of_pos (Decimal.ten_zpow_pos _)]
  have hlog : Int.log 10 |tinyDifference.value 4| = -60 := by
    rw [hsize]
    exact_mod_cast Int.log_zpow (R := ℝ) (by decide : 1 < 10) (-60)
  have hdefined : ∀ n < 5, tinyDifference.IsDefined n := by
    intro n hn
    interval_cases n <;>
      simp [Graph.isDefined_iff, tinyDifference, Op.IsDefined, Op.operands]
  refine ⟨hdefined, hvalue, ?_, render_of_within 20 (by decide +kernel), ?_⟩
  · rw [hsize]
    exact (two_zpow_le (by decide : -4094 ≤ -240)).trans (by norm_num)
  · rw [hlog, Decimal.number_zero, Rat.cast_zero, zero_sub, abs_neg, hsize]
    exact Decimal.ten_zpow_le (by decide)

end Reckoner.Reals
