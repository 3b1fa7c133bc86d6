import Reckoner.Reals.Request
/-!
What holds of all answers of a graph's computations. If every node's computation comes to an
acceptable value whenever what it asks for is answered acceptably, then so does every run, whatever has
been asked before, and what is kept of it is acceptable too (`Contract.settles_approximate`).
-/
namespace Reckoner.Reals

variable {α ε : Type}

theorem run_of_ended {programs : Programs α ε} {s : Configuration α ε} {answer : Answer α ε}
    (h : step programs s = .inl answer) : run programs s = answer := by
  rw [run]
  split
  · rename_i heq
    exact (Sum.inl.inj (h.symm.trans heq)).symm
  · rename_i heq
    cases h.symm.trans heq

theorem run_of_step {programs : Programs α ε} {s t : Configuration α ε}
    (h : step programs s = .inr t) : run programs s = run programs t := by
  rw [run]
  split
  · rename_i heq
    cases h.symm.trans heq
  · rename_i heq
    rw [Sum.inr.inj (h.symm.trans heq)]

/-- Which values of a node to a precision are acceptable, and which failures of it are. What is precise
enough is so for every lower precision. -/
structure Contract (α ε : Type) where
  accepts : Nat → Int → α → Prop
  refuses : Nat → ε → Prop
  mono : ∀ {n p q v}, p ≤ q → accepts n q v → accepts n p v

namespace Contract

variable (c : Contract α ε)

/-- The request comes to an acceptable value of a node if acceptable values are given to it. -/
def Keeps {n : Nat} (node : Nat) (precision : Int) : Request n α ε → Prop
  | .done value => c.accepts node precision value
  | .fail error => c.refuses node error
  | .ask i q resume => ∀ value, c.accepts i q value → Keeps node precision (resume value)

/-- All kept values are acceptable. -/
def Cached (cache : Cache α) : Prop :=
  ∀ n p v, cache[n]? = some (some (p, v)) → c.accepts n p v

/-- An answer for a node: an acceptable value or some node's acceptable failure, and acceptable values
kept. -/
structure Settles (node : Nat) (precision : Int) (answer : Answer α ε) : Prop where
  value : ∀ v, answer.1 = .ok v → c.accepts node precision v
  failure : ∀ e, answer.1 = .error e → ∃ n, c.refuses n e
  cache : c.Cached answer.2

/-- The suspended computations go on well with an acceptable value of a node, and the last of them is
that of the root. -/
def Waits (root : Nat) (wanted : Int) (node : Nat) (precision : Int) :
    List (Frame α ε) → Prop
  | [] => node = root ∧ precision = wanted
  | f :: fs =>
    (∀ v, c.accepts node precision v → c.Keeps f.node f.precision (f.resume v)) ∧
      Waits root wanted f.node f.precision fs

/-- What a configuration on the way to the root's value keeps. -/
inductive OnTheWay (root : Nat) (wanted : Int) : Configuration α ε → Prop where
  | running {n p request stack cache} (keeps : c.Keeps n p request)
      (waits : c.Waits root wanted n p stack) (cached : c.Cached cache) :
      OnTheWay root wanted (.running n p request stack cache)
  | returning {n p value stack cache} (accepts : c.accepts n p value)
      (waits : c.Waits root wanted n p stack) (cached : c.Cached cache) :
      OnTheWay root wanted (.returning value stack cache)

variable {c} {programs : Programs α ε} {cache : Cache α} {root node : Nat} {wanted precision : Int}

theorem cached_empty (n : Nat) : c.Cached (Array.replicate n none) := by
  intro i p v h
  rw [Array.getElem?_replicate] at h
  split at h <;> cases h

theorem Cached.keep (h : c.Cached cache) {v : α} (hv : c.accepts node precision v) :
    c.Cached (cache.keep node precision v) := by
  intro n p w hw
  rw [Cache.keep, Array.getElem?_setIfInBounds] at hw
  split at hw
  · rename_i hn
    split at hw
    · cases hw
      exact hn ▸ hv
    · cases hw
  · exact h n p w hw

/-- What is found is precise enough. -/
theorem Cached.find? (h : c.Cached cache) {v : α} (hv : cache.find? node precision = some v) :
    c.accepts node precision v := by
  unfold Cache.find? at hv
  split at hv
  · rename_i kept value hkept
    split at hv
    · rename_i hle
      cases hv
      exact c.mono hle (h _ _ _ hkept)
    · cases hv
  · cases hv

/-- One step keeps on the way, or ends well. -/
theorem OnTheWay.step (hp : ∀ n p, c.Keeps n p (programs n p)) {s : Configuration α ε}
    (h : c.OnTheWay root wanted s) :
    (∀ answer, Reals.step programs s = .inl answer → c.Settles root wanted answer) ∧
      ∀ t, Reals.step programs s = .inr t → c.OnTheWay root wanted t := by
  cases h with
  | @running n p request stack cache keeps waits cached =>
    cases request with
    | done value =>
      refine ⟨fun _ h => (by cases h), fun t h => ?_⟩
      cases h
      exact .returning keeps waits (cached.keep keeps)
    | fail error =>
      refine ⟨fun answer h => ?_, fun _ h => by cases h⟩
      cases h
      refine ⟨fun v h => (by cases h), fun e h => ?_, cached⟩
      cases h
      exact ⟨n, keeps⟩
    | ask i q resume =>
      simp only [Reals.step]
      split
      · rename_i value hfound
        refine ⟨fun _ h => (by cases h), fun t h => ?_⟩
        cases h
        exact .running (keeps value (cached.find? hfound)) waits cached
      · refine ⟨fun _ h => (by cases h), fun t h => ?_⟩
        cases h
        exact .running (hp i q) ⟨keeps, waits⟩ cached
  | @returning n p value stack cache accepts waits cached =>
    cases stack with
    | nil =>
      obtain ⟨rfl, rfl⟩ := waits
      refine ⟨fun answer h => ?_, fun _ h => by cases h⟩
      cases h
      refine ⟨fun v h => ?_, fun e h => (by cases h), cached⟩
      cases h
      exact accepts
    | cons f fs =>
      refine ⟨fun _ h => (by cases h), fun t h => ?_⟩
      cases h
      exact .running (waits.1 value accepts) waits.2 cached

/-- A run from a configuration on the way ends well. -/
theorem OnTheWay.run (hp : ∀ n p, c.Keeps n p (programs n p)) {s : Configuration α ε}
    (h : c.OnTheWay root wanted s) : c.Settles root wanted (Reals.run programs s) := by
  induction s using (wellFounded_next programs).induction with
  | _ s ih =>
    rcases hstep : Reals.step programs s with answer | t
    · rw [run_of_ended hstep]
      exact (h.step hp).1 answer hstep
    · rw [run_of_step hstep]
      exact ih t hstep ((h.step hp).2 t hstep)

theorem settles_approximate (hp : ∀ n p, c.Keeps n p (programs n p)) (h : c.Cached cache)
    (node : Nat) (precision : Int) :
    c.Settles node precision (approximate programs node precision cache) := by
  unfold approximate
  split
  · rename_i v hfound
    refine ⟨fun w hw => ?_, fun e he => (by cases he), h⟩
    cases hw
    exact h.find? hfound
  · have hwaits : c.Waits node precision node precision [] := ⟨rfl, rfl⟩
    exact (OnTheWay.running (hp node precision) hwaits h).run hp

end Contract

/-- The cache after values of nodes have been asked for, one after the other. -/
def afterwards (programs : Programs α ε) (asked : List (Nat × Int)) (cache : Cache α) : Cache α :=
  asked.foldl (fun cache q => (approximate programs q.1 q.2 cache).2) cache

theorem Contract.Cached.afterwards {c : Contract α ε} {programs : Programs α ε} {cache : Cache α}
    (h : c.Cached cache) (hp : ∀ n p, c.Keeps n p (programs n p)) (asked : List (Nat × Int)) :
    c.Cached (Reals.afterwards programs asked cache) := by
  induction asked generalizing cache with
  | nil => exact h
  | cons q asked ih => exact ih (c.settles_approximate hp h q.1 q.2).cache

end Reckoner.Reals
