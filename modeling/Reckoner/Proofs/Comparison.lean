import Reckoner.Proofs.BoundedRun
import Reckoner.Proofs.IntegerTest
/-!
Comparisons and integer tests. Approximations are off by a quarter of the tolerance at most, so a verdict
holds of the numbers themselves with a tolerance that is as much larger or smaller
(`verdicts_sound`).
-/
namespace Reckoner.Reals

variable {kernel : Kernel} {g : Graph} {node a b : ℕ} {p : ℤ} {cache cache' : Cache BigFloat}
  {x y : BigFloat} {d z : ℝ}

/-- A number counts as zero, or it has a sign and is larger than the tolerance. -/
theorem signBeyond_cases (p : ℤ) (x : BigFloat) :
    (signBeyond p x = 0 ∧ |x.value| ≤ 2 ^ (-p)) ∨ (signBeyond p x = 1 ∧ 2 ^ (-p) < x.value) ∨
      (signBeyond p x = -1 ∧ x.value < -2 ^ (-p)) := by
  have hle : (x.abs.le (BigFloat.twoPow (-p)) = true) ↔ |x.value| ≤ 2 ^ (-p) := by
    rw [BigFloat.le_iff, BigFloat.value_abs, BigFloat.value_twoPow]
  unfold signBeyond
  dsimp only
  split
  · rename_i h
    exact .inl ⟨rfl, hle.1 h⟩
  · rename_i h
    have hlarge : 2 ^ (-p) < |x.value| := not_le.1 fun hsmall => h (hle.2 hsmall)
    rcases lt_trichotomy x.value 0 with hx | hx | hx
    · rw [abs_of_neg hx] at hlarge
      exact .inr (.inr ⟨Int.sign_eq_neg_one_of_neg (BigFloat.value_neg_iff.1 hx), by linarith⟩)
    · rw [hx, abs_zero] at hlarge
      exact absurd hlarge (not_lt.2 (two_zpow_pos _).le)
    · rw [abs_of_pos hx] at hlarge
      exact .inr (.inl ⟨Int.sign_eq_one_of_pos (BigFloat.value_pos_iff.1 hx), hlarge⟩)

theorem two_zpow_lt_of_signBeyond (h : signBeyond p x ≠ 0) : 2 ^ (-p) < |x.value| := by
  rcases signBeyond_cases p x with ⟨hsign, -⟩ | ⟨-, hx⟩ | ⟨-, hx⟩
  · exact absurd hsign h
  · exact lt_abs.2 (.inl hx)
  · exact lt_abs.2 (.inr (lt_neg_of_lt_neg hx))

/-- What a sign found with a tolerance of `2 ^ (-p)` says of a number that is known to half of it. -/
structure Decides (p : ℤ) (d : ℝ) (sign : ℤ) : Prop where
  positive : sign = 1 → 2 ^ (-(p + 1)) < d
  negative : sign = -1 → 2 ^ (-(p + 1)) < -d
  zero : sign = 0 → |d| ≤ 3 / 2 * 2 ^ (-p)
  eq_zero : |d| ≤ 2 ^ (-(p + 1)) → sign = 0
  cases : sign = 1 ∨ sign = -1 ∨ sign = 0

theorem decides_signBeyond (h : Within (p + 1) x.value d) : Decides p d (signBeyond p x) := by
  have hhalf : (2 : ℝ) ^ (-p) = 2 ^ (-(p + 1)) + 2 ^ (-(p + 1)) := by
    rw [two_zpow_add_self]
    congr 1
    ring
  obtain ⟨hlow, hhigh⟩ := abs_le.1 h
  have hpos := two_zpow_pos (-(p + 1))
  rcases signBeyond_cases p x with ⟨hsign, hx⟩ | ⟨hsign, hx⟩ | ⟨hsign, hx⟩ <;> rw [hsign]
  · obtain ⟨hx₁, hx₂⟩ := abs_le.1 hx
    refine ⟨fun h => ?_, fun h => ?_, fun _ => abs_le.2 ⟨?_, ?_⟩, fun _ => rfl, .inr (.inr rfl)⟩
    · cases h
    · cases h
    · linarith
    · linarith
  · refine ⟨fun _ => ?_, fun h => ?_, fun h => ?_, fun h => ?_, .inl rfl⟩
    · linarith
    · cases h
    · cases h
    · linarith [(abs_le.1 h).2]
  · refine ⟨fun h => ?_, fun _ => ?_, fun h => ?_, fun h => ?_, .inr (.inl rfl)⟩
    · cases h
    · linarith
    · cases h
    · linarith [(abs_le.1 h).1]

/-- No integer is nearer than the nearest. -/
theorem abs_sub_nearestInt_le_abs_sub (x : BigFloat) (n : ℤ) :
    |x.value - x.nearestInt| ≤ |x.value - n| := by
  have hnearest := BigFloat.abs_sub_nearestInt_le x
  by_cases hn : n = x.nearestInt
  · rw [hn]
  · have hone : (1 : ℝ) ≤ |(n : ℝ) - x.nearestInt| := by
      exact_mod_cast Int.one_le_abs (sub_ne_zero.2 hn)
    have htriangle := abs_sub_le (n : ℝ) x.value x.nearestInt
    rw [abs_sub_comm (n : ℝ) x.value] at htriangle
    linarith

/-! What queries ask for, and when they have answers. -/

/-- Nodes can be approximated one after the other, each to its precision. -/
def Materialize {α ε : Type} (programs : Programs α ε) : List (ℕ × ℤ) → Cache α → Prop
  | [], _ => True
  | (node, p) :: asked, cache =>
    ∃ v cache', approximate programs node p cache = (.ok v, cache') ∧ Materialize programs asked cache'

/-- The same with a bound on the steps of each approximation. -/
def materializeWithin {α ε : Type} (programs : Programs α ε) (steps : ℕ) :
    List (ℕ × ℤ) → Cache α → Bool
  | [], _ => true
  | (node, p) :: asked, cache =>
    match approximateWithin programs steps node p cache with
    | some (.ok _, cache') => materializeWithin programs steps asked cache'
    | _ => false

theorem materialize_of_within {α ε : Type} {programs : Programs α ε} (steps : ℕ) {asked : List (ℕ × ℤ)}
    {cache : Cache α} (h : materializeWithin programs steps asked cache = true) :
    Materialize programs asked cache := by
  induction asked generalizing cache with
  | nil => trivial
  | cons q asked ih =>
    rw [materializeWithin] at h
    split at h
    · rename_i v cache' hv
      exact ⟨v, cache', approximate_of_within hv, ih h⟩
    · cases h

/-- A query has an answer just if what it asks for can be approximated, and then a right one. -/
structure Answers {α : Type} (programs : Programs BigFloat ArithmeticError) (asked : List (ℕ × ℤ))
    (cache : Cache BigFloat) (query : Query α) (right : α → Prop) : Prop where
  materialize : (∃ r, (query cache).1 = .ok r) ↔ Materialize programs asked cache
  right : ∀ r, (query cache).1 = .ok r → right r

namespace Answers

variable {α : Type} {asked : List (ℕ × ℤ)} {right : α → Prop}

theorem pure {programs : Programs BigFloat ArithmeticError} {v : α} (h : right v) :
    Answers programs [] cache (Pure.pure v) right where
  materialize := ⟨fun _ => trivial, fun _ => ⟨v, rfl⟩⟩
  right _ hr := Except.ok.inj hr ▸ h

/-- A query that asks for one approximation first. -/
theorem bind {f : BigFloat → Query α}
    (h : ∀ x cache', approximateTo kernel g node p cache = (.ok x, cache') →
      Answers (g.programs kernel) asked cache' (f x) right) :
    Answers (g.programs kernel) ((node, p) :: asked) cache (approximateTo kernel g node p >>= f)
      right := by
  have hanswer : ∀ r, ((approximateTo kernel g node p >>= f) cache).1 = .ok r ↔
      ∃ x cache', approximateTo kernel g node p cache = (.ok x, cache') ∧ (f x cache').1 = .ok r := by
    intro r
    constructor
    · intro hr
      obtain ⟨x, cache', hx, hfx⟩ := run_bind_eq_ok_iff.1 (Prod.ext hr rfl)
      exact ⟨x, cache', hx, congrArg Prod.fst hfx⟩
    · rintro ⟨x, cache', hx, hfx⟩
      exact congrArg Prod.fst (run_bind_eq_ok_iff.2 ⟨x, cache', hx, Prod.ext hfx rfl⟩)
  constructor
  · constructor
    · rintro ⟨r, hr⟩
      obtain ⟨x, cache', hx, hfx⟩ := (hanswer r).1 hr
      exact ⟨x, cache', hx, (h x cache' hx).materialize.1 ⟨r, hfx⟩⟩
    · rintro ⟨x, cache', hx, hasked⟩
      obtain ⟨r, hfx⟩ := (h x cache' hx).materialize.2 hasked
      exact ⟨r, (hanswer r).2 ⟨x, cache', hx, hfx⟩⟩
  · intro r hr
    obtain ⟨x, cache', hx, hfx⟩ := (hanswer r).1 hr
    exact (h x cache' hx).right r hfx

end Answers

/-! The queries about order and integers. -/

section

variable (hk : kernel.Accurate) (hcached : g.accuracy.Cached cache) (ha : g.IsDefined a)

include hk hcached ha

theorem compare_answers (hb : g.IsDefined b) (p : ℤ) :
    Answers (g.programs kernel) [(a, p + 2), (b, p + 2)] cache (compare kernel g a b p)
      (Decides p (g.value a - g.value b)) := by
  refine .bind fun x cache₁ hx => .bind fun y cache₂ hy => .pure ?_
  obtain ⟨hxa, hcached₁⟩ := within_of_approximateTo hk ha hcached hx
  obtain ⟨hyb, -⟩ := within_of_approximateTo hk hb hcached₁ hy
  apply decides_signBeyond
  rw [BigFloat.value_subExact]
  exact .sub (hxa.mono (by omega)) (hyb.mono (by omega))

theorem signum_answers (p : ℤ) :
    Answers (g.programs kernel) [(a, p + 2)] cache (signum kernel g a p) (Decides p (g.value a)) := by
  refine .bind fun x cache₁ hx => .pure ?_
  obtain ⟨hxa, -⟩ := within_of_approximateTo hk ha hcached hx
  exact decides_signBeyond (hxa.mono (by omega))

/-- The answer to whether a number is an integer holds with a tolerance that is a quarter larger, or
smaller. -/
theorem isInteger_answers (p : ℤ) :
    Answers (g.programs kernel) [(a, p + 2)] cache (isInteger kernel g a p) fun r =>
      (r = true → ∃ n : ℤ, |g.value a - n| ≤ 5 / 4 * 2 ^ (-p)) ∧
        (r = false → ∀ n : ℤ, 3 / 4 * 2 ^ (-p) < |g.value a - n|) := by
  refine .bind fun x cache₁ hx => .pure ?_
  have hxa := (within_of_approximateTo hk ha hcached hx).1
  have hquarter : (2 : ℝ) ^ (-p) = 4 * 2 ^ (-(p + 2)) := by
    rw [neg_add, zpow_add₀ two_ne_zero, mul_comm, mul_assoc]
    norm_num
  have hdistance : (x.subExact (BigFloat.ofInt x.nearestInt)).value = x.value - x.nearestInt := by
    rw [BigFloat.value_subExact, BigFloat.value_ofInt]
  constructor
  · intro hr
    refine ⟨x.nearestInt, ?_⟩
    have hnear := abs_value_le_of_signBeyond (of_decide_eq_true hr)
    rw [hdistance] at hnear
    calc |g.value a - x.nearestInt| ≤ |g.value a - x.value| + |x.value - x.nearestInt| :=
          abs_sub_le _ _ _
      _ ≤ 2 ^ (-(p + 2)) + 2 ^ (-p) := by
        rw [abs_sub_comm (g.value a)]
        exact add_le_add hxa hnear
      _ = 5 / 4 * 2 ^ (-p) := by
        rw [hquarter]
        ring
  · intro hr n
    have hfar := two_zpow_lt_of_signBeyond (of_decide_eq_false hr)
    rw [hdistance] at hfar
    have hsum : 2 ^ (-p) < 2 ^ (-(p + 2)) + |g.value a - n| :=
      calc 2 ^ (-p) < |x.value - x.nearestInt| := hfar
        _ ≤ |x.value - n| := abs_sub_nearestInt_le_abs_sub x n
        _ ≤ |x.value - g.value a| + |g.value a - n| := abs_sub_le _ _ _
        _ ≤ 2 ^ (-(p + 2)) + |g.value a - n| := add_le_add_left hxa _
    linarith

theorem toInteger_answers :
    Answers (g.programs kernel) [(a, 2)] cache (toInteger kernel g a) fun n =>
      |g.value a - n| ≤ 3 / 4 ∧ ∀ m : ℤ, |g.value a - m| < 1 / 4 → n = m := by
  refine .bind fun x cache₁ hx => .pure ?_
  have hxa : |x.value - g.value a| ≤ 1 / 4 :=
    le_trans (within_of_approximateTo hk ha hcached hx).1 (by norm_num)
  have hnearest := BigFloat.abs_sub_nearestInt_le x
  constructor
  · calc |g.value a - x.nearestInt| ≤ |g.value a - x.value| + |x.value - x.nearestInt| :=
          abs_sub_le _ _ _
      _ ≤ 1 / 4 + 1 / 2 := by
        rw [abs_sub_comm (g.value a)]
        exact add_le_add hxa hnearest
      _ = 3 / 4 := by norm_num
  · intro m hm
    have hxm : |x.value - m| < 1 / 2 :=
      calc |x.value - m| ≤ |x.value - g.value a| + |g.value a - m| := abs_sub_le _ _ _
        _ < 1 / 4 + 1 / 4 := add_lt_add_of_le_of_lt hxa hm
        _ = 1 / 2 := by norm_num
    apply eq_of_abs_sub_lt_one
    calc |(x.nearestInt : ℝ) - m| ≤ |x.nearestInt - x.value| + |x.value - m| := abs_sub_le _ _ _
      _ < 1 / 2 + 1 / 2 := by
        rw [abs_sub_comm _ x.value]
        exact add_lt_add_of_le_of_lt hnearest hxm
      _ = 1 := add_halves 1

end

/-! The integer that a number counts as. -/

theorem eq_round_of_abs_sub_le {n : ℤ} (hp : 2 ≤ p) (h : |z - n| ≤ 5 / 4 * 2 ^ (-p)) :
    n = round z := by
  apply eq_round_of_abs_sub_lt
  calc |z - n| ≤ 5 / 4 * 2 ^ (-p) := h
    _ ≤ 5 / 4 * 2 ^ (-2 : ℤ) := by
      gcongr
      exact one_le_two
    _ < 1 / 2 := by norm_num

theorem abs_sub_le_of_integer? {n : ℤ} (hk : kernel.Accurate) (hcached : g.accuracy.Cached cache)
    (ha : g.IsDefined a) (hp : 3 ≤ p) (h : integer? kernel g a p cache = (.ok (some n), cache')) :
    |g.value a - n| ≤ 5 / 4 * 2 ^ (-p) := by
  obtain ⟨r, cache₁, htest, hn⟩ := run_bind_eq_ok_iff.1 h
  cases r with
  | false => cases hn
  | true =>
    have hright := (isInteger_answers hk hcached ha p).right true (congrArg Prod.fst htest)
    obtain ⟨m, hm⟩ := hright.1 rfl
    obtain rfl : m = n := (eq_round_of_abs_sub_le (by omega) hm).trans
      (eq_round_of_integer? hk ha hcached hp h).symm
    exact hm

theorem lt_abs_sub_of_integer? (hk : kernel.Accurate) (hcached : g.accuracy.Cached cache)
    (ha : g.IsDefined a) (h : integer? kernel g a p cache = (.ok none, cache')) (n : ℤ) :
    3 / 4 * 2 ^ (-p) < |g.value a - n| := by
  obtain ⟨r, cache₁, htest, hn⟩ := run_bind_eq_ok_iff.1 h
  cases r with
  | false =>
    exact ((isInteger_answers hk hcached ha p).right false (congrArg Prod.fst htest)).2 rfl n
  | true =>
    rw [if_pos rfl, ← bind_pure_comp] at hn
    obtain ⟨m, cache₂, -, hn⟩ := run_bind_eq_ok_iff.1 hn
    cases hn

/-- Where a number is close to an integer, it is approximated once more to find it. -/
theorem exists_of_materialize
    (h : Materialize (g.programs kernel) [(a, p + 2), (a, 2)] cache) :
    ∃ n? cache', integer? kernel g a p cache = (.ok n?, cache') := by
  obtain ⟨x, cache₁, hx, y, cache₂, hy, -⟩ := h
  have htest : isInteger kernel g a p cache =
      (.ok (decide (signBeyond p (x.subExact (BigFloat.ofInt x.nearestInt)) = 0)), cache₁) :=
    run_bind_eq_ok_iff.2 ⟨x, cache₁, hx, rfl⟩
  cases hr : decide (signBeyond p (x.subExact (BigFloat.ofInt x.nearestInt)) = 0) with
  | false =>
    rw [hr] at htest
    exact ⟨none, cache₁, run_bind_eq_ok_iff.2 ⟨false, cache₁, htest, rfl⟩⟩
  | true =>
    rw [hr] at htest
    refine ⟨some y.nearestInt, cache₂, run_bind_eq_ok_iff.2 ⟨true, cache₁, htest, ?_⟩⟩
    rw [if_pos rfl, ← bind_pure_comp]
    exact run_bind_eq_ok_iff.2 ⟨_, cache₂, run_bind_eq_ok_iff.2 ⟨y, cache₂, hy, rfl⟩, rfl⟩

/-- The number of a formula can be approximated to some precisions, one after the other. -/
def Term.Materializes (kernel : Kernel) (m : Memory) (t : Term) (asked : List ℤ) : Prop :=
  let x := Draft.draw t m.draft
  Materialize (x.draft.graph.programs kernel) (asked.map (Prod.mk x.node))
    (m.cache.grow x.draft.graph.size)

end Reckoner.Reals

namespace Reckoner.Dual

open Reals

variable {kernel : Kernel} {x : Dual} {names : ℕ → Term} {m : Memory}

/-- What counts as an integer has the factorial of the one that it is close to. -/
theorem factorial_cases (hk : kernel.Accurate) (hm : m.Sound names) (hx : x.exact = none)
    (hconsistent : x.real.Consistent names) (hdefined : x.real.IsDefined) :
    (∃ n : ℤ, |x.real.value - n| ≤ 5 / 4 * 2 ^ (-integerTest) ∧
        (∀ l : ℤ, |x.real.value - l| ≤ 5 / 4 * 2 ^ (-integerTest) → l = n) ∧
        (x.factorial kernel m).1 = (orReal · x.real) <$> Exact.factorial (some n)) ∨
      ((∀ n : ℤ, 3 / 4 * 2 ^ (-integerTest) < |x.real.value - n|) ∧
        (x.factorial kernel m).1 = .error .factorialOfNonInteger) ∨
      (¬ x.real.Materializes kernel m [integerTest + 2, 2] ∧
        ∃ e, (x.factorial kernel m).1 = .error e) := by
  obtain ⟨hshows, -, hkept⟩ := hm.draw hconsistent
  have hnode := hshows.isDefined hdefined
  rcases hask : (x.real.ask fun g node => integer? kernel g node integerTest) m with ⟨answer, m'⟩
  obtain ⟨cache, hanswer⟩ : ∃ cache, integer? kernel (Draft.draw x.real m.draft).draft.graph
      (Draft.draw x.real m.draft).node integerTest
      (m.cache.grow (Draft.draw x.real m.draft).draft.graph.size) = (answer, cache) :=
    ⟨_, Prod.ext (congrArg Prod.fst hask :) rfl⟩
  rcases answer with e | _ | n
  · refine .inr (.inr ⟨fun hmaterialize => ?_, e, ?_⟩)
    · obtain ⟨n?, cache', h⟩ := exists_of_materialize hmaterialize
      rw [hanswer] at h
      cases h
    · rw [factorial_of_ask_error hx hask]
  · refine .inr (.inl ⟨fun n => ?_, ?_⟩)
    · rw [← hshows.value]
      exact lt_abs_sub_of_integer? hk hkept.cached hnode hanswer n
    · rw [factorial_of_ask hx hask]
      rfl
  · have hn := abs_sub_le_of_integer? hk hkept.cached hnode (by decide) hanswer
    rw [hshows.value] at hn
    refine .inl ⟨n, hn, fun l hl => ?_, ?_⟩
    · rw [eq_round_of_abs_sub_le (by decide) hl, eq_round_of_abs_sub_le (by decide) hn]
    · rw [factorial_of_ask hx hask]
      rfl

end Reckoner.Dual

namespace Reckoner.Reals

/-- Verdicts on numbers that have values, after any questions about their graph. Each query has an answer
just if the approximations that it asks for can be made, and
* the sign of a difference is not zero only if the difference has this sign and is larger than half the
  tolerance; it is zero for every difference of at most half the tolerance, and for none of more than one
  and a half times it;
* a number passes for an integer only if there is one within five quarters of the tolerance, and fails to
  only if there is none within three quarters of it;
* the integer nearest to the approximation is within three quarters, and it is the one within less than a
  quarter if there is one;
* the factorial of a number without an exact value, whatever else is kept of the numbers asked for, is
  that of the only integer within five quarters of the tolerance. -/
theorem verdicts_sound {kernel : Kernel} (hk : kernel.Accurate) (g : Graph) (asked : List (ℕ × ℤ))
    {a b : ℕ} (ha : g.IsDefined a) (hb : g.IsDefined b) (p : ℤ) :
    let programs := g.programs kernel
    let cache := afterwards programs asked (Array.replicate g.size none)
    Answers programs [(a, p + 2), (b, p + 2)] cache (compare kernel g a b p)
        (Decides p (g.value a - g.value b)) ∧
      Answers programs [(a, p + 2)] cache (signum kernel g a p) (Decides p (g.value a)) ∧
      Answers programs [(a, p + 2)] cache (isInteger kernel g a p) (fun r =>
        (r = true → ∃ n : ℤ, |g.value a - n| ≤ 5 / 4 * 2 ^ (-p)) ∧
          (r = false → ∀ n : ℤ, 3 / 4 * 2 ^ (-p) < |g.value a - n|)) ∧
      Answers programs [(a, 2)] cache (toInteger kernel g a) (fun n =>
        |g.value a - n| ≤ 3 / 4 ∧ ∀ m : ℤ, |g.value a - m| < 1 / 4 → n = m) ∧
      ∀ (x : Dual) (names : ℕ → Term) (m : Memory), m.Sound names → x.exact = none →
        x.real.Consistent names → x.real.IsDefined →
        (∃ n : ℤ, |x.real.value - n| ≤ 5 / 4 * 2 ^ (-(100 : ℤ)) ∧
            (∀ l : ℤ, |x.real.value - l| ≤ 5 / 4 * 2 ^ (-(100 : ℤ)) → l = n) ∧
            (x.factorial kernel m).1 = (Dual.orReal · x.real) <$> Exact.factorial (some n)) ∨
          ((∀ n : ℤ, 3 / 4 * 2 ^ (-(100 : ℤ)) < |x.real.value - n|) ∧
            (x.factorial kernel m).1 = .error .factorialOfNonInteger) ∨
          (¬ x.real.Materializes kernel m [102, 2] ∧ ∃ e, (x.factorial kernel m).1 = .error e) := by
  intro programs cache
  have hcached := (g.accuracy.cached_empty g.size).afterwards (g.keeps_programs hk) asked
  exact ⟨compare_answers hk hcached ha hb p, signum_answers hk hcached ha p,
    isInteger_answers hk hcached ha p, toInteger_answers hk hcached ha,
    fun x names m hm hx hconsistent hdefined =>
      Dual.factorial_cases hk hm hx hconsistent hdefined⟩

/-- √2 · √2 without an exact value. -/
def rootSquared : Dual := ⟨.mul (.sqrt (.rational 2)) (.sqrt (.rational 2)), none⟩

/-- Its difference to 2 is found to be zero, its sign to be one, and its factorial to be that of 2. -/
theorem verdicts_sound_rootSquared :
    let g := rootSquaredMinusPi
    let cache := afterwards (g.programs Kernel.ideal) [] (Array.replicate g.size none)
    (Kernel.ideal.Accurate ∧ g.IsDefined 2 ∧ g.IsDefined 0) ∧
      (compare Kernel.ideal g 2 0 10 cache).1 = .ok 0 ∧
      (signum Kernel.ideal g 2 10 cache).1 = .ok 1 ∧
      (isInteger Kernel.ideal g 2 10 cache).1 = .ok true ∧
      (toInteger Kernel.ideal g 2 cache).1 = .ok 2 ∧
      (rootSquared.exact = none ∧ rootSquared.real.Consistent (fun _ => .pi) ∧
        rootSquared.real.IsDefined) ∧
      Memory.empty.Sound (fun _ => .pi) ∧
      (rootSquared.factorial Kernel.ideal Memory.empty).1 = .ok (.ofRat 2) := by
  intro g cache
  have hroot : g.value 2 = 2 := by
    simp [g, Graph.value_of_lt, rootSquaredMinusPi, Op.value]
  have htwo : g.value 0 = 2 := by
    simp [g, Graph.value_of_lt, rootSquaredMinusPi, Op.value]
  have hdefined : g.IsDefined 2 ∧ g.IsDefined 0 := by
    constructor <;>
      simp [g, Graph.isDefined_iff, Graph.value_of_lt, rootSquaredMinusPi, Op.IsDefined, Op.value,
        Op.operands]
  have hconsistent : rootSquared.real.Consistent (fun _ => .pi) := by
    simp [rootSquared, Term.Consistent]
  have hreal : rootSquared.real.IsDefined := by
    simp [rootSquared, Term.IsDefined, Term.value]
  have hvalue : rootSquared.real.value = 2 := by
    simp [rootSquared, Term.value]
  obtain ⟨hcompare, hsignum, hisInteger, htoInteger, hfactorial⟩ :=
    verdicts_sound Kernel.ideal_accurate g [] hdefined.1 hdefined.2 10
  rw [hroot] at hsignum hisInteger htoInteger
  rw [hroot, htwo, sub_self] at hcompare
  have hsmall : 3 / 2 * (2 : ℝ) ^ (-10 : ℤ) < 2 := by norm_num
  refine ⟨⟨Kernel.ideal_accurate, hdefined⟩, ?_, ?_, ?_, ?_, ⟨rfl, hconsistent, hreal⟩,
    Memory.sound_empty _, ?_⟩
  · obtain ⟨r, hr⟩ := hcompare.materialize.2 (materialize_of_within 100 (by decide +kernel))
    have hzero := (hcompare.right r hr).eq_zero (abs_zero.trans_le (two_zpow_pos _).le)
    rw [hr, hzero]
  · obtain ⟨r, hr⟩ := hsignum.materialize.2 (materialize_of_within 100 (by decide +kernel))
    have hright := hsignum.right r hr
    rcases hright.cases with rfl | rfl | rfl
    · exact hr
    · linarith [hright.negative rfl, two_zpow_pos (-(10 + 1))]
    · linarith [(abs_le.1 (hright.zero rfl)).2]
  · obtain ⟨r, hr⟩ :=
      hisInteger.materialize.2 (materialize_of_within 100 (by decide +kernel))
    cases r with
    | true => exact hr
    | false =>
      have hfar := (hisInteger.right false hr).2 rfl 2
      norm_num at hfar
  · obtain ⟨n, hn⟩ :=
      htoInteger.materialize.2 (materialize_of_within 100 (by decide +kernel))
    obtain rfl := (htoInteger.right n hn).2 2 (by norm_num)
    exact hn
  · have hmaterializes : rootSquared.real.Materializes Kernel.ideal Memory.empty [102, 2] :=
      materialize_of_within 100 (by decide +kernel)
    rcases hfactorial rootSquared _ _ (Memory.sound_empty _) rfl hconsistent hreal with
      ⟨n, -, honly, heq⟩ | ⟨hfar, -⟩ | ⟨hnot, -⟩
    · obtain rfl := honly 2 (by rw [hvalue]; norm_num)
      exact heq
    · have hfar := hfar 2
      rw [hvalue] at hfar
      norm_num at hfar
    · exact absurd hmaterializes hnot

end Reckoner.Reals
