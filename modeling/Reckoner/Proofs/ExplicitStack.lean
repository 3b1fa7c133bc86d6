import Mathlib.Order.WithBot
import Reckoner.Proofs.BoundedRun
import Reckoner.Proofs.DomainErrors
/-!
The explicit stack against recursion. A run comes to an answer after finitely many steps, and both the
answer and the cache that is left, also by a failure, are those of the recursion that answers a request
from the cache if what is kept serves, and evaluates the node asked for otherwise
(`run_refines_recursion`). On the way no node's kept value gives way to a less precise one, but for the
node where a run begins though its kept value would have served (`run_lowers_precision`): the nodes
being computed ascend along the stack, and each is computed because what is kept of it did not serve
(`Configuration.Due.step`).
-/
namespace Reckoner.Reals

variable {α ε : Type} {programs : Programs α ε} {cache : Cache α} {node i : ℕ} {p q : ℤ}

/-- Answers a request for a node by recursion: with the kept value if it serves, else with a new one. -/
def fetch (programs : Programs α ε) (node : ℕ) (p : ℤ) (cache : Cache α) : Answer α ε :=
  match cache.find? node p with
  | some value => (.ok value, cache)
  | none => evaluate programs node p cache

/-- Keeps the value of an answer, if it has one. -/
def keepAnswer (node : ℕ) (p : ℤ) : Answer α ε → Answer α ε
  | (.ok value, cache) => (.ok value, cache.keep node p value)
  | (.error e, cache) => (.error e, cache)

theorem evaluate_eq (programs : Programs α ε) (node : ℕ) (p : ℤ) (cache : Cache α) :
    evaluate programs node p cache =
      keepAnswer node p ((programs node p).carryOut (fun i => fetch programs i) cache) := by
  rw [evaluate]
  rfl

/-- Goes on with an answer: a value is returned to the suspended computations, an error ends the run. -/
def proceed (programs : Programs α ε) (stack : List (Frame α ε)) : Answer α ε → Answer α ε
  | (.ok value, cache) => run programs (.returning value stack cache)
  | (.error e, cache) => (.error e, cache)

/-- Running a computation above suspended ones is carrying it out by recursion, and going on with what
that comes to. -/
theorem run_running (programs : Programs α ε) (n : ℕ) (p : ℤ) (request : Request n α ε)
    (stack : List (Frame α ε)) (cache : Cache α) :
    run programs (.running n p request stack cache) =
      proceed programs stack
        (keepAnswer n p (request.carryOut (fun i => fetch programs i) cache)) := by
  induction n using Nat.strongRecOn generalizing p stack cache with
  | ind n ih =>
    induction request generalizing cache with
    | done value => exact run_of_step rfl
    | fail error => exact run_of_ended rfl
    | ask i q resume ihr =>
      rw [Request.carryOut]
      cases hfound : cache.find? i q with
      | some value =>
        have hstep : step programs (.running n p (.ask i q resume) stack cache) =
            .inr (.running n p (resume value) stack cache) := by
          simp only [step, hfound]
        have hfetch : fetch programs i q cache = (.ok value, cache) := by
          simp only [fetch, hfound]
        rw [run_of_step hstep, hfetch]
        exact ihr value cache
      | none =>
        have hstep : step programs (.running n p (.ask i q resume) stack cache) =
            .inr (.running i q (programs i q) (⟨n, p, resume⟩ :: stack) cache) := by
          simp only [step, hfound]
        have hfetch : fetch programs i q cache = evaluate programs i q cache := by
          simp only [fetch, hfound]
        rw [run_of_step hstep, ih i i.isLt, ← evaluate_eq, hfetch]
        rcases evaluate programs i q cache with ⟨error | value, cache'⟩
        · rfl
        · -- the value goes to the frame on top, whose computation is this one
          exact (run_of_step rfl).trans (ihr value cache')

theorem run_start (programs : Programs α ε) (node : ℕ) (p : ℤ) (cache : Cache α) :
    run programs (.running node p (programs node p) [] cache) = evaluate programs node p cache := by
  rw [run_running, ← evaluate_eq]
  rcases evaluate programs node p cache with ⟨error | value, cache'⟩
  · rfl
  · exact run_of_ended rfl

theorem approximate_eq_fetch (programs : Programs α ε) (node : ℕ) (p : ℤ) (cache : Cache α) :
    approximate programs node p cache = fetch programs node p cache := by
  unfold approximate fetch
  cases cache.find? node p with
  | some value => rfl
  | none => exact run_start programs node p cache

/-! Kept precisions. -/

/-- The precision to which a node's value is kept, if one is. -/
def Cache.precision (cache : Cache α) (node : ℕ) : WithBot ℤ :=
  match cache[node]? with
  | some (some (kept, _)) => kept
  | _ => ⊥

theorem Cache.precision_lt_of_find? (h : cache.find? node p = none) : cache.precision node < p := by
  rcases hkept : cache[node]? with _ | _ | ⟨kept, value⟩
  · simp only [precision, hkept]
    exact WithBot.bot_lt_coe p
  · simp only [precision, hkept]
    exact WithBot.bot_lt_coe p
  · have hlt : kept < p := by simpa [find?, hkept] using h
    simp only [precision, hkept]
    exact WithBot.coe_lt_coe.2 hlt

theorem Cache.precision_keep_of_ne (h : i ≠ node) (value : α) :
    (cache.keep node p value).precision i = cache.precision i := by
  rw [precision, precision, keep, Array.getElem?_setIfInBounds_ne h.symm]

/-- What is kept in place of something less precise is more precise. -/
theorem Cache.precision_le_keep (h : cache.precision node < p) (value : α) :
    cache.precision node ≤ (cache.keep node p value).precision node := by
  by_cases hnode : node < cache.size
  · have hkept : (cache.keep node p value).precision node = p := by
      rw [precision, keep, Array.getElem?_setIfInBounds_self_of_lt hnode]
    rw [hkept]
    exact h.le
  · rw [precision, Array.getElem?_eq_none (not_lt.1 hnode)]
    exact bot_le

namespace Configuration

/-- The values kept so far. -/
def kept : Configuration α ε → Cache α
  | running _ _ _ _ cache => cache
  | returning _ _ cache => cache

/-- The nodes being computed and to which precision, the one begun last first. -/
def pending : Configuration α ε → List (ℕ × ℤ)
  | running n p _ stack _ => (n, p) :: stack.map fun f => (f.node, f.precision)
  | returning _ stack _ => stack.map fun f => (f.node, f.precision)

/-- The nodes being computed ascend, and what is kept of those that are watched does not serve. -/
structure Due (watched : ℕ → Prop) (s : Configuration α ε) : Prop where
  ascending : s.pending.Pairwise fun a b => a.1 < b.1
  unserved : ∀ a ∈ s.pending, watched a.1 → s.kept.precision a.1 < a.2

end Configuration

open Reckoner.Reals.Configuration

variable {watched : ℕ → Prop} {s t : Configuration α ε}

theorem due_start (request : Request node α ε) (h : watched node → cache.find? node p = none) :
    Due watched (.running node p request [] cache) := by
  refine ⟨List.pairwise_singleton _ _, fun a ha hwatched => ?_⟩
  obtain rfl := List.mem_singleton.1 ha
  exact Cache.precision_lt_of_find? (h hwatched)

/-- A step keeps what it found, or something more precise for the node that is done. -/
theorem Configuration.Due.step (h : s.Due watched) (hstep : Reals.step programs s = .inr t) :
    t.Due watched ∧ ∀ i, watched i → s.kept.precision i ≤ t.kept.precision i := by
  cases s with
  | running n p request stack cache =>
    obtain ⟨hbelow, hascending⟩ := List.pairwise_cons.1 h.ascending
    cases request with
    | done value =>
      cases hstep
      have hsame : ∀ i, i ≠ n → (cache.keep n p value).precision i = cache.precision i :=
        fun i hi => Cache.precision_keep_of_ne hi value
      refine ⟨⟨hascending, fun a ha hwatched => ?_⟩, fun i hwatched => ?_⟩
      · -- the node that is done is below all that wait for it
        have hlt := h.unserved a (List.mem_cons_of_mem _ ha) hwatched
        rwa [Configuration.kept, hsame a.1 (hbelow a ha).ne']
      · by_cases hi : i = n
        · subst hi
          exact Cache.precision_le_keep (h.unserved _ List.mem_cons_self hwatched) value
        · exact (hsame i hi).ge
    | fail error => cases hstep
    | ask j q resume =>
      simp only [Reals.step] at hstep
      split at hstep
      · cases hstep
        exact ⟨⟨h.ascending, h.unserved⟩, fun i _ => le_rfl⟩
      · rename_i hfound
        cases hstep
        refine ⟨⟨List.pairwise_cons.2 ⟨fun a ha => ?_, h.ascending⟩, fun a ha hwatched => ?_⟩,
          fun i _ => le_rfl⟩
        · rcases List.mem_cons.1 ha with rfl | ha
          · exact j.isLt
          · exact j.isLt.trans (hbelow a ha)
        · rcases List.mem_cons.1 ha with rfl | ha
          · exact Cache.precision_lt_of_find? hfound
          · exact h.unserved a ha hwatched
  | returning value stack cache =>
    cases stack with
    | nil => cases hstep
    | cons f fs =>
      cases hstep
      exact ⟨⟨h.ascending, h.unserved⟩, fun i _ => le_rfl⟩

theorem Configuration.Due.reaches (h : s.Due watched) (hreaches : Reaches programs s t) :
    t.Due watched ∧ ∀ i, watched i → s.kept.precision i ≤ t.kept.precision i := by
  induction hreaches with
  | refl => exact ⟨h, fun i _ => le_rfl⟩
  | tail _ hstep ih =>
    obtain ⟨hdue, hle⟩ := ih
    obtain ⟨hdue', hle'⟩ := hdue.step hstep
    exact ⟨hdue', fun i hi => (hle i hi).trans (hle' i hi)⟩

/-- A run ends with the answer of the last configuration that it comes to, whose cache it leaves. -/
theorem exists_reaches_end (programs : Programs α ε) (s : Configuration α ε) :
    ∃ t, Reaches programs s t ∧ (run programs s).2 = t.kept := by
  induction s using (wellFounded_next programs).induction with
  | _ s ih =>
    cases hstep : step programs s with
    | inr t =>
      obtain ⟨u, hreaches, hcache⟩ := ih t hstep
      exact ⟨u, .head hstep hreaches, by rw [run_of_step hstep, hcache]⟩
    | inl answer =>
      refine ⟨s, .refl, ?_⟩
      rw [run_of_ended hstep]
      cases s with
      | running n p request stack cache =>
        cases request with
        | done value => cases hstep
        | fail error =>
          cases hstep
          rfl
        | ask j q resume =>
          simp only [step] at hstep
          split at hstep <;> cases hstep
      | returning value stack cache =>
        cases stack with
        | nil =>
          cases hstep
          rfl
        | cons f fs => cases hstep

theorem precision_le_run (h : s.Due watched) (hi : watched i) :
    s.kept.precision i ≤ (run programs s).2.precision i := by
  obtain ⟨t, hreaches, hkept⟩ := exists_reaches_end programs s
  rw [hkept]
  exact (h.reaches hreaches).2 i hi

theorem precision_le_approximate (programs : Programs α ε) (node : ℕ) (p : ℤ) (cache : Cache α)
    (i : ℕ) : cache.precision i ≤ (approximate programs node p cache).2.precision i := by
  unfold approximate
  cases hfound : cache.find? node p with
  | some value => exact le_rfl
  | none =>
    have hstart : Due (fun _ => True) (.running node p (programs node p) [] cache) :=
      due_start _ fun _ => hfound
    exact precision_le_run hstart trivial

/-- A node is computed to a precision from an explicit stack, whatever is kept. The run ends, and comes
to what recursion comes to: the same value or the same error, with the same cache. So does the question
for a node, which starts a run only where the kept value does not serve. No precision to which a value
is kept ever goes down: along a run that of the node itself might, if its kept value served already, but
no other one's, and none at all by a question. -/
theorem run_refines_recursion (programs : Programs α ε) (node : ℕ) (p : ℤ) (cache : Cache α) :
    let start := Configuration.running node p (programs node p) [] cache
    (∃ steps, runWithin programs steps start = some (evaluate programs node p cache)) ∧
      run programs start = evaluate programs node p cache ∧
      approximate programs node p cache = fetch programs node p cache ∧
      (∀ i, (i = node → cache.find? node p = none) →
        (∀ s t, Reaches programs start s → Reaches programs s t →
          s.kept.precision i ≤ t.kept.precision i) ∧
        cache.precision i ≤ (run programs start).2.precision i) ∧
      ∀ i, cache.precision i ≤ (approximate programs node p cache).2.precision i := by
  intro start
  have hrun : run programs start = evaluate programs node p cache := run_start programs node p cache
  refine ⟨run_eq_iff.1 hrun, hrun, approximate_eq_fetch programs node p cache, fun i hi => ?_,
    precision_le_approximate programs node p cache⟩
  have hstart : Due (· = i) start := due_start _ fun hnode => hi hnode.symm
  refine ⟨fun s t hs ht => ?_, precision_le_run hstart rfl⟩
  exact ((hstart.reaches hs).1.reaches ht).2 i rfl

/-- A run that begins at a node whose kept value would have served puts a less precise value in its
place. -/
theorem run_lowers_precision :
    let programs : Programs ℕ Empty := fun _ _ => .done 7
    let cache : Cache ℕ := #[some (100, 7)]
    let start := Configuration.running 0 10 (programs 0 10) [] cache
    cache.precision 0 = (100 : ℤ) ∧ run programs start = (.ok 7, #[some (10, 7)]) ∧
      evaluate programs 0 10 cache = (.ok 7, #[some (10, 7)]) ∧
      (run programs start).2.precision 0 = (10 : ℤ) ∧
      ¬ cache.precision 0 ≤ (run programs start).2.precision 0 := by
  intro programs cache start
  have hevaluate : evaluate programs 0 10 cache = (.ok 7, #[some (10, 7)]) := evaluate_eq ..
  have hrun : run programs start = (.ok 7, #[some (10, 7)]) := (run_start ..).trans hevaluate
  have hkept : cache.precision 0 = (100 : ℤ) := rfl
  have hlowered : (run programs start).2.precision 0 = (10 : ℤ) := by
    rw [hrun]
    rfl
  refine ⟨hkept, hrun, hevaluate, hlowered, ?_⟩
  rw [hkept, hlowered, WithBot.coe_le_coe]
  decide

end Reckoner.Reals
