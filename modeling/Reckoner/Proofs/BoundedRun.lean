import Reckoner.Dual
import Reckoner.Proofs.Answers
import Reckoner.Proofs.Recall
/-!
Runs with a bound on their steps. A run comes to an answer just if it does so within some number of steps
(`run_eq_iff`), and with a bound it is computed by recursion on the bound, so that the integer test
of a factorial can be evaluated (`Dual.factorial_of_within`).
-/
namespace Reckoner

namespace Reals

variable {α ε : Type}

/-- The answer that a configuration comes to, if it takes at most so many steps. -/
def runWithin (programs : Programs α ε) : Nat → Configuration α ε → Option (Answer α ε)
  | 0, _ => none
  | steps + 1, s =>
    match step programs s with
    | .inl answer => some answer
    | .inr t => runWithin programs steps t

theorem run_eq_iff {programs : Programs α ε} {s : Configuration α ε} {answer : Answer α ε} :
    run programs s = answer ↔ ∃ steps, runWithin programs steps s = some answer := by
  constructor
  · intro h
    induction s using (wellFounded_next programs).induction with
    | _ s ih =>
      cases hs : step programs s with
      | inl answer' =>
        obtain rfl : answer' = answer := (run_of_ended hs).symm.trans h
        exact ⟨1, by rw [runWithin, hs]⟩
      | inr t =>
        obtain ⟨steps, ht⟩ := ih t hs ((run_of_step hs).symm.trans h)
        exact ⟨steps + 1, by rw [runWithin, hs]; exact ht⟩
  · rintro ⟨steps, h⟩
    induction steps generalizing s with
    | zero => cases h
    | succ steps ih =>
      rw [runWithin] at h
      cases hs : step programs s with
      | inl answer' =>
        rw [hs] at h
        exact (run_of_ended hs).trans (Option.some.inj h)
      | inr t =>
        rw [hs] at h
        exact (run_of_step hs).trans (ih h)

/-- The value of a node to a precision, if finding it takes at most so many steps. -/
def approximateWithin (programs : Programs α ε) (steps node : Nat) (precision : Int)
    (cache : Cache α) : Option (Answer α ε) :=
  match cache.find? node precision with
  | some value => some (.ok value, cache)
  | none => runWithin programs steps (.running node precision (programs node precision) [] cache)

theorem approximate_of_within {programs : Programs α ε} {steps node : Nat} {precision : Int}
    {cache : Cache α} {answer : Answer α ε}
    (h : approximateWithin programs steps node precision cache = some answer) :
    approximate programs node precision cache = answer := by
  unfold approximateWithin at h
  unfold approximate
  cases hfound : cache.find? node precision with
  | some value =>
    simp only [hfound] at h ⊢
    exact Option.some.inj h
  | none =>
    simp only [hfound] at h ⊢
    exact run_eq_iff.2 ⟨steps, h⟩

/-- The integer that a formula is found to be close to, or that there is none, and the memory that is
left, if finding this takes at most so many steps. -/
def Term.integerWithin (kernel : Kernel) (steps : Nat) (precision : Int) (t : Term) (m : Memory) :
    Option (Option Int × Memory) :=
  let x := Draft.draw t m.draft
  let programs := x.draft.graph.programs kernel
  match approximateWithin programs steps x.node (precision + 2)
      (m.cache.grow x.draft.graph.size) with
  | some (.ok y, cache) =>
    if signBeyond precision (y.subExact (BigFloat.ofInt y.nearestInt)) = 0 then
      match approximateWithin programs steps x.node 2 cache with
      | some (.ok z, cache) => some (some z.nearestInt, ⟨x.draft, cache⟩)
      | _ => none
    else some (none, ⟨x.draft, cache⟩)
  | _ => none

theorem Term.ask_of_integerWithin {kernel : Kernel} {steps : Nat} {precision : Int} {t : Term}
    {m m' : Memory} {answer : Option Int}
    (h : t.integerWithin kernel steps precision m = some (answer, m')) :
    (t.ask fun g node => integer? kernel g node precision) m = (.ok answer, m') := by
  unfold integerWithin at h
  unfold ask
  generalize Draft.draw t m.draft = x at h ⊢
  dsimp only at h ⊢
  split at h
  · rename_i y cache hy
    have htest : isInteger kernel x.draft.graph x.node precision
        (m.cache.grow x.draft.graph.size) =
          (.ok (decide (signBeyond precision (y.subExact (BigFloat.ofInt y.nearestInt)) = 0)),
            cache) :=
      run_bind_eq_ok_iff.2 ⟨y, cache, approximate_of_within hy, rfl⟩
    by_cases hzero : signBeyond precision (y.subExact (BigFloat.ofInt y.nearestInt)) = 0
    · rw [if_pos hzero] at h
      split at h
      · rename_i z cache' hz
        have hround : toInteger kernel x.draft.graph x.node cache = (.ok z.nearestInt, cache') :=
          run_bind_eq_ok_iff.2 ⟨z, cache', approximate_of_within hz, rfl⟩
        have hanswer : integer? kernel x.draft.graph x.node precision
            (m.cache.grow x.draft.graph.size) = (.ok (some z.nearestInt), cache') := by
          refine run_bind_eq_ok_iff.2 ⟨true, cache, ?_, ?_⟩
          · rw [htest, decide_eq_true hzero]
          · rw [if_pos rfl, ← bind_pure_comp]
            exact run_bind_eq_ok_iff.2 ⟨_, cache', hround, rfl⟩
        rw [hanswer]
        cases h
        rfl
      · cases h
    · rw [if_neg hzero] at h
      have hanswer : integer? kernel x.draft.graph x.node precision
          (m.cache.grow x.draft.graph.size) = (.ok none, cache) := by
        refine run_bind_eq_ok_iff.2 ⟨false, cache, ?_, rfl⟩
        rw [htest, decide_eq_false hzero]
      rw [hanswer]
      cases h
      rfl
  · cases h

end Reals

open Reals

namespace Dual

variable {kernel : Kernel} {x : Dual} {m m' : Memory}

/-- The factorial of a number without an exact value, by the integer that it is found to be close to. -/
def factorialAs (x : Dual) : Option Int → Except ArithmeticError Dual
  | none => .error .factorialOfNonInteger
  | some n => (orReal · x.real) <$> Exact.factorial (some n)

theorem factorial_of_exact {q : Rat} (hx : x.exact = some q) (m : Memory) :
    x.factorial kernel m = ((orReal · x.real) <$> Exact.factorial (some q), m) := by
  simp only [factorial, wholeValue, hx, Recall.bind_apply, Recall.pure_apply, Recall.ofExcept_apply]
  cases Exact.factorial (some q) <;> rfl

theorem factorial_of_ask {answer : Option Int} (hx : x.exact = none)
    (h : (x.real.ask fun g node => integer? kernel g node integerTest) m = (.ok answer, m')) :
    x.factorial kernel m = (x.factorialAs answer, m') := by
  simp only [factorial, wholeValue, hx, bind_assoc]
  rw [Recall.bind_of_ok h]
  cases answer with
  | none => rfl
  | some n =>
    simp only [Recall.bind_apply, Recall.pure_apply, Recall.ofExcept_apply, factorialAs]
    cases Exact.factorial (some n) <;> rfl

theorem factorial_of_ask_error {e : ArithmeticError} (hx : x.exact = none)
    (h : (x.real.ask fun g node => integer? kernel g node integerTest) m = (.error e, m')) :
    x.factorial kernel m = (.error e, m') := by
  simp only [factorial, wholeValue, hx, bind_assoc]
  rw [Recall.bind_of_error h]

/-- The factorial of a number without an exact value, where the test for an integer is computed. -/
theorem factorial_of_within (steps : Nat) {answer : Option Int} (hx : x.exact = none)
    (h : x.real.integerWithin kernel steps integerTest m = some (answer, m')) :
    x.factorial kernel m = (x.factorialAs answer, m') :=
  factorial_of_ask hx (Term.ask_of_integerWithin h)

end Dual

end Reckoner
