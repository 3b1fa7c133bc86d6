import Reckoner.Reals.Query
import Reckoner.Reals.Term
/-!
What is kept from one evaluation to the next. A kept number is drawn once, and from then on it is the
same node with the approximation last found for it, whoever asks and however the asking ends. So
an evaluation reads and extends a memory, and its result may depend on what was evaluated before.
-/
namespace Reckoner.Reals

/-- The graph of all numbers asked for so far, with the nodes of those that are kept, and the
approximations found. -/
structure Memory where
  draft : Draft
  cache : Cache BigFloat

def Memory.empty : Memory := ⟨Draft.empty, #[]⟩

/-- The cache with room for so many nodes. -/
def Cache.grow {α : Type} (cache : Cache α) (size : Nat) : Cache α :=
  cache ++ Array.replicate (size - cache.size) none

/-- A computation that reads and extends the memory and may fail. -/
abbrev Recall (ε : Type) := ExceptT ε (StateM Memory)

namespace Recall

variable {ε ε' α : Type}

/-- A result that does not depend on the memory. -/
def ofExcept (x : Except ε α) : Recall ε α := fun m => (x, m)

def mapError (f : ε → ε') (x : Recall ε α) : Recall ε' α := fun m =>
  let (result, m) := x m
  (result.mapError f, m)

/-- What a computation comes to, which may be a failure. -/
def outcome (x : Recall ε α) : Recall ε' (Except ε α) := fun m =>
  let (result, m) := x m
  (.ok result, m)

end Recall

variable {α : Type}

/-- Answers a query about the number of a term. -/
def Term.ask (t : Term) (query : Graph → Nat → Query α) : Recall ArithmeticError α := fun m =>
  let x := Draft.draw t m.draft
  let (result, cache) := query x.draft.graph x.node (m.cache.grow x.draft.graph.size)
  (result, ⟨x.draft, cache⟩)

/-- Answers a query about the numbers of two terms. -/
def Term.askBoth (t u : Term) (query : Graph → Nat → Nat → Query α) : Recall ArithmeticError α :=
  fun m =>
    let x := Draft.draw t m.draft
    let y := Draft.draw u x.draft
    let (result, cache) := query y.draft.graph x.node y.node (m.cache.grow y.draft.graph.size)
    (result, ⟨y.draft, cache⟩)

/-- A number with about `bits` significant bits of a term's. -/
def Term.approximate (kernel : Kernel) (bits : Int) (t : Term) : Recall ArithmeticError BigFloat :=
  t.ask fun g node => approximateBits kernel g node bits

/-- A term's number to a number of significant decimal digits. -/
def Term.render (kernel : Kernel) (digits : Nat) (t : Term) : Recall ArithmeticError String :=
  t.ask fun g node => Reals.render kernel g node digits

end Reckoner.Reals
