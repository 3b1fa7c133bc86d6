import Mathlib.Algebra.Order.Round
import Reckoner.Proofs.Remembering
/-!
The integer that a number counts as. A number that is found close enough to an integer is closer to it
than to any other, so the integer is the number rounded, whatever is kept of its approximations
(`Term.eq_round_of_ask`).
-/
namespace Reckoner.Reals

variable {kernel : Kernel} {g : Graph} {node : ℕ} {p : ℤ} {cache cache' : Cache BigFloat}
  {n : ℤ} {t : Term} {names : ℕ → Term} {m m' : Memory}

/-- A number whose sign does not show is small. -/
theorem abs_value_le_of_signBeyond {x : BigFloat} (h : signBeyond p x = 0) :
    |x.value| ≤ 2 ^ (-p) := by
  unfold signBeyond at h
  dsimp only at h
  split at h
  · rename_i hle
    rwa [BigFloat.le_iff, BigFloat.value_abs, BigFloat.value_twoPow] at hle
  · rw [BigFloat.value_eq_zero_iff.2 (Int.sign_eq_zero_iff_zero.1 h), abs_zero]
    exact (two_zpow_pos _).le

/-- A query finds a node that is defined within what it asks for, and keeps good approximations. -/
theorem within_of_approximateTo (hk : kernel.Accurate) (hdefined : g.IsDefined node)
    (hcached : g.accuracy.Cached cache) {x : BigFloat}
    (h : approximateTo kernel g node p cache = (.ok x, cache')) :
    Within p x.value (g.value node) ∧ g.accuracy.Cached cache' := by
  have hsettles := g.accuracy.settles_approximate (g.keeps_programs hk) hcached node p
  have hvalue : (approximate (g.programs kernel) node p cache).1 = .ok x := congrArg Prod.fst h
  have hcache : (approximate (g.programs kernel) node p cache).2 = cache' := congrArg Prod.snd h
  exact ⟨hsettles.value x hvalue hdefined, hcache ▸ hsettles.cache⟩

theorem eq_of_abs_sub_lt_one {m n : ℤ} (h : |(m : ℝ) - n| < 1) : m = n := by
  have hlt : |m - n| < 1 := by exact_mod_cast h
  have hzero := Int.abs_lt_one_iff.1 hlt
  omega

/-- An integer that a number is close to is the number rounded. -/
theorem eq_round_of_abs_sub_lt {z : ℝ} (h : |z - n| < 1 / 2) : n = round z := by
  apply eq_of_abs_sub_lt_one
  calc |(n : ℝ) - round z| ≤ |(n : ℝ) - z| + |z - round z| := abs_sub_le _ _ _
    _ < 1 / 2 + 1 / 2 := by
      rw [abs_sub_comm (n : ℝ) z]
      exact add_lt_add_of_lt_of_le h (abs_sub_round z)
    _ = 1 := add_halves 1

theorem exists_of_toInteger (h : (some <$> toInteger kernel g node : Query (Option ℤ)) cache =
    (.ok (some n), cache')) :
    ∃ y, approximateTo kernel g node 2 cache = (.ok y, cache') ∧ y.nearestInt = n := by
  rw [← bind_pure_comp] at h
  obtain ⟨m, cache₁, hm, h⟩ := run_bind_eq_ok_iff.1 h
  obtain ⟨y, cache₂, hy, hm⟩ := run_bind_eq_ok_iff.1 hm
  cases hm
  cases h
  exact ⟨y, hy, rfl⟩

/-- The first approximation shows that there is an integer close by, and the second, rougher one finds
it. -/
theorem eq_round_of_integer? (hk : kernel.Accurate) (hdefined : g.IsDefined node)
    (hcached : g.accuracy.Cached cache) (hp : 3 ≤ p)
    (h : integer? kernel g node p cache = (.ok (some n), cache')) : n = round (g.value node) := by
  obtain ⟨isInteger, cache₁, htest, h⟩ := run_bind_eq_ok_iff.1 h
  cases isInteger with
  | false => cases h
  | true =>
    obtain ⟨x, cache₂, hx, htest⟩ := run_bind_eq_ok_iff.1 htest
    have hsign : decide (signBeyond p (x.subExact (BigFloat.ofInt x.nearestInt)) = 0) = true :=
      Except.ok.inj (congrArg Prod.fst htest)
    obtain rfl : cache₂ = cache₁ := congrArg Prod.snd htest
    have hinteger := abs_value_le_of_signBeyond (of_decide_eq_true hsign)
    rw [BigFloat.value_subExact, BigFloat.value_ofInt] at hinteger
    obtain ⟨hclose, hcached⟩ := within_of_approximateTo hk hdefined hcached hx
    obtain ⟨y, hy, rfl⟩ := exists_of_toInteger h
    have hrough := (within_of_approximateTo hk hdefined hcached hy).1
    have hsum : |g.value node - x.nearestInt| < 1 / 4 :=
      calc |g.value node - x.nearestInt|
          ≤ |g.value node - x.value| + |x.value - x.nearestInt| := abs_sub_le _ _ _
        _ ≤ 2 ^ (-(p + 2)) + 2 ^ (-p) := by
          rw [abs_sub_comm]
          exact add_le_add hclose hinteger
        _ ≤ 2 ^ (-5 : ℤ) + 2 ^ (-3 : ℤ) :=
          add_le_add (two_zpow_le (by omega)) (two_zpow_le (by omega))
        _ < 1 / 4 := by norm_num
    have hsame : y.nearestInt = x.nearestInt := by
      apply eq_of_abs_sub_lt_one
      calc |(y.nearestInt : ℝ) - x.nearestInt|
          ≤ |(y.nearestInt : ℝ) - y.value| + |y.value - g.value node| +
              |g.value node - x.nearestInt| :=
            (abs_sub_le _ _ _).trans (add_le_add_left (abs_sub_le _ _ _) _)
        _ < 1 / 2 + 1 / 4 + 1 / 4 := by
          rw [abs_sub_comm (y.nearestInt : ℝ)]
          apply add_lt_add_of_le_of_lt _ hsum
          apply add_le_add (BigFloat.abs_sub_nearestInt_le y)
          exact le_trans hrough (by norm_num)
        _ = 1 := by norm_num
    rw [hsame]
    exact eq_round_of_abs_sub_lt (hsum.trans (by norm_num))

/-- The integer that a formula is found to be close to is its value rounded. -/
theorem Term.eq_round_of_ask (hk : kernel.Accurate) (hm : m.Sound names) (ht : t.Consistent names)
    (hdefined : t.IsDefined) (hp : 3 ≤ p)
    (h : (t.ask fun g node => integer? kernel g node p) m = (.ok (some n), m')) :
    n = round t.value := by
  obtain ⟨g, node, cache, hshows, hkept, hask⟩ :=
    Term.exists_ask hm ht fun g node => integer? kernel g node p
  rw [h] at hask
  rw [← hshows.value]
  exact eq_round_of_integer? hk (hshows.isDefined hdefined) hkept.cached hp (Prod.ext hask.symm rfl)

end Reckoner.Reals
