/-!
Computations on the nodes of an acyclic graph that ask for each other's values. A node's computation
is a `Request`, which may ask only for nodes of lower number, each to some precision, and a `Cache`
keeps the most recent answer of each node. `evaluate` answers the requests by recursion; `run` does
it from an explicit stack, so that its depth does not depend on the graph, and `wellFounded_next`
says that it always ends.
-/
namespace Reckoner.Reals

variable {α ε : Type}

/-- A computation that may ask for the values of nodes below `n`. -/
inductive Request (n : Nat) (α ε : Type) where
  | done (value : α)
  | fail (error : ε)
  | ask (node : Fin n) (precision : Int) (resume : α → Request n α ε)

/-- The computation of each node to each precision. -/
abbrev Programs (α ε : Type) := (n : Nat) → Int → Request n α ε

/-- The last value found for each node, with its precision. -/
abbrev Cache (α : Type) := Array (Option (Int × α))

/-- The kept value of a node, if it is precise enough. -/
def Cache.find? (cache : Cache α) (node : Nat) (precision : Int) : Option α :=
  match cache[node]? with
  | some (some (kept, value)) => if precision ≤ kept then some value else none
  | _ => none

/-- Keeps a value in place of the node's former one. -/
def Cache.keep (cache : Cache α) (node : Nat) (precision : Int) (value : α) : Cache α :=
  cache.setIfInBounds node (some (precision, value))

/-- An outcome and the cache it leaves. -/
abbrev Answer (α ε : Type) := Except ε α × Cache α

/-- Carries out a request, given how to answer what it asks. -/
def Request.carryOut {n : Nat} (answer : Fin n → Int → Cache α → Answer α ε) :
    Request n α ε → Cache α → Answer α ε
  | .done value, cache => (.ok value, cache)
  | .fail error, cache => (.error error, cache)
  | .ask node precision resume, cache =>
    match answer node precision cache with
    | (.ok value, cache) => (resume value).carryOut answer cache
    | (.error error, cache) => (.error error, cache)

/-- Computes a node by recursion on what it asks for. -/
def evaluate (programs : Programs α ε) (n : Nat) (precision : Int) (cache : Cache α) :
    Answer α ε :=
  let outcome := (programs n precision).carryOut (fun i p cache =>
    match cache.find? i p with
    | some value => (.ok value, cache)
    | none => evaluate programs i p cache) cache
  match outcome with
  | (.ok value, cache) => (.ok value, cache.keep n precision value)
  | (.error error, cache) => (.error error, cache)
termination_by n
decreasing_by exact i.isLt

/-- A suspended computation, waiting for a value. -/
structure Frame (α ε : Type) where
  node : Nat
  precision : Int
  resume : α → Request node α ε

/-- A computation in progress above suspended ones, or a value on its way to the topmost of them. -/
inductive Configuration (α ε : Type) where
  | running (node : Nat) (precision : Int) (request : Request node α ε)
      (stack : List (Frame α ε)) (cache : Cache α)
  | returning (value : α) (stack : List (Frame α ε)) (cache : Cache α)

/-- One step, which ends or leads to the next configuration. -/
def step (programs : Programs α ε) : Configuration α ε → Answer α ε ⊕ Configuration α ε
  | .running n p (.done value) stack cache => .inr (.returning value stack (cache.keep n p value))
  | .running _ _ (.fail error) _ cache => .inl (.error error, cache)
  | .running n p (.ask i q resume) stack cache =>
    match cache.find? i q with
    | some value => .inr (.running n p (resume value) stack cache)
    | none => .inr (.running i q (programs i q) (⟨n, p, resume⟩ :: stack) cache)
  | .returning value [] cache => .inl (.ok value, cache)
  | .returning value (⟨n, p, resume⟩ :: stack) cache =>
    .inr (.running n p (resume value) stack cache)

/-- `t` is the configuration after `s`. -/
def Next (programs : Programs α ε) (t s : Configuration α ε) : Prop :=
  step programs s = .inr t

theorem acc_of_step {programs : Programs α ε} {s : Configuration α ε}
    (h : ∀ t, step programs s = .inr t → Acc (Next programs) t) : Acc (Next programs) s :=
  Acc.intro s fun t ht => h t ht

/-- A computation ends if returning to the computations below it does. -/
theorem acc_running (programs : Programs α ε) (n : Nat) (p : Int) (request : Request n α ε)
    (stack : List (Frame α ε)) (cache : Cache α)
    (h : ∀ value cache, Acc (Next programs) (.returning value stack cache)) :
    Acc (Next programs) (.running n p request stack cache) := by
  induction n using Nat.strongRecOn generalizing p stack cache with
  | ind n ih =>
    induction request generalizing cache with
    | done value =>
      apply acc_of_step
      intro t ht
      simp only [step, Sum.inr.injEq] at ht
      exact ht ▸ h _ _
    | fail error =>
      apply acc_of_step
      intro t ht
      simp [step] at ht
    | ask i q resume ihr =>
      apply acc_of_step
      intro t ht
      simp only [step] at ht
      split at ht
      · simp only [Sum.inr.injEq] at ht
        exact ht ▸ ihr _ _
      · simp only [Sum.inr.injEq] at ht
        subst ht
        refine ih i i.isLt q (programs i q) _ cache fun value cache => ?_
        apply acc_of_step
        intro t ht
        simp only [step, Sum.inr.injEq] at ht
        exact ht ▸ ihr _ _

theorem acc_returning (programs : Programs α ε) (stack : List (Frame α ε)) :
    ∀ value cache, Acc (Next programs) (.returning value stack cache) := by
  induction stack with
  | nil =>
    intro value cache
    apply acc_of_step
    intro t ht
    simp [step] at ht
  | cons frame stack ih =>
    intro value cache
    apply acc_of_step
    intro t ht
    simp only [step, Sum.inr.injEq] at ht
    exact ht ▸ acc_running programs _ _ _ _ _ ih

/-- No sequence of steps goes on for ever. -/
theorem wellFounded_next (programs : Programs α ε) : WellFounded (Next programs) := by
  refine ⟨fun s => ?_⟩
  cases s with
  | running n p request stack cache =>
    exact acc_running programs n p request stack cache (acc_returning programs stack)
  | returning value stack cache => exact acc_returning programs stack value cache

/-- A configuration on the way to its end under given programs. -/
structure Pending (programs : Programs α ε) where
  configuration : Configuration α ε

instance (programs : Programs α ε) : WellFoundedRelation (Pending programs) :=
  ⟨fun t s => Next programs t.configuration s.configuration,
    InvImage.wf Pending.configuration (wellFounded_next programs)⟩

def run (programs : Programs α ε) (s : Configuration α ε) : Answer α ε :=
  match _h : step programs s with
  | .inl answer => answer
  | .inr t => run programs t
termination_by (⟨s⟩ : Pending programs)
decreasing_by assumption

/-- The value of a node to a precision: the kept one if it serves, else a new one. -/
def approximate (programs : Programs α ε) (node : Nat) (precision : Int) (cache : Cache α) :
    Answer α ε :=
  match cache.find? node precision with
  | some value => (.ok value, cache)
  | none => run programs (.running node precision (programs node precision) [] cache)

end Reckoner.Reals
