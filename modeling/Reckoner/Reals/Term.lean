import Reckoner.Reals.Graph
/-!
Real numbers as formulas. A `Term` says how a number is made; `named` marks a number that is kept and
used in several places, by which it is recognised there. `Graph` nodes are made from a term when its
value is wanted, each named number once.
-/
namespace Reckoner.Reals

/-- What makes two occurrences of a kept number one: being one of the constants that everything shares,
or a name. -/
inductive Identity where
  | pi
  | e
  | radiansPerDegree
  | degreesPerRadian
  | lnTen
  | hundredth
  | name (n : Nat)
  deriving DecidableEq, Repr

/-- A formula for a real number. -/
inductive Term where
  | rational (q : Rat)
  | pi
  | e
  | add (a b : Term)
  | sub (a b : Term)
  | mul (a b : Term)
  | neg (a : Term)
  | inverse (a : Term)
  | sqrt (a : Term)
  | ln (a : Term)
  | exp (a : Term)
  | sin (a : Term)
  | cos (a : Term)
  /-- Sine over cosine of one number. -/
  | tan (a : Term)
  | arcsin (a : Term)
  | arccos (a : Term)
  | arctan (a : Term)
  /-- The product of a number with itself. -/
  | square (a : Term)
  /-- An integer power other than the first. -/
  | power (a : Term) (n : Int)
  /-- A number that is kept. -/
  | named (identity : Identity) (a : Term)
  deriving DecidableEq, Repr

namespace Term

/-- The quotient, as a product with the inverse. -/
def div (a b : Term) : Term := mul a (inverse b)

/-- An integer power; the first power is the number itself. -/
def intPower (a : Term) (n : Int) : Term :=
  if n = 1 then a else power a n

/-- The identity of a number that has one. -/
def identity? : Term → Option Identity
  | pi => some .pi
  | e => some .e
  | named i _ => some i
  | _ => none

end Term

/-- A graph under construction, and the nodes of the numbers that are kept in it. -/
structure Draft where
  graph : Graph
  kept : List (Identity × Nat)

namespace Draft

def empty : Draft := ⟨Graph.empty, []⟩

/-- A draft with a node of it, no smaller than a draft that it continues. -/
structure Continuation (d : Draft) where
  draft : Draft
  node : Nat
  node_lt : node < draft.graph.size
  le_size : d.graph.size ≤ draft.graph.size

def extend (d : Draft) (x : Graph.Extension d.graph) : Continuation d :=
  ⟨{ d with graph := x.graph }, x.node, x.node_lt, x.le_size⟩

def Continuation.andThen {d : Draft} (x : Continuation d) (y : Continuation x.draft) :
    Continuation d :=
  ⟨y.draft, y.node, y.node_lt, Nat.le_trans x.le_size y.le_size⟩

def Continuation.keep {d : Draft} (x : Continuation d) (identity : Identity) : Continuation d :=
  ⟨{ x.draft with kept := (identity, x.node) :: x.draft.kept }, x.node, x.node_lt, x.le_size⟩

/-- The kept node of an identity, if there is one, else what `make` adds. -/
def reuse (d : Draft) (identity : Identity) (make : Unit → Continuation d) : Continuation d :=
  match d.kept.lookup identity with
  | some node =>
    if h : node < d.graph.size then ⟨d, node, h, Nat.le_refl _⟩ else (make ()).keep identity
  | none => (make ()).keep identity

def Continuation.unary {d : Draft} (x : Continuation d) (op : Nat → Op Nat)
    (h : (op x.node).operands = [x.node] := by rfl) : Continuation d :=
  x.andThen (x.draft.extend (x.draft.graph.unary op x.node x.node_lt h))

/-- Adds an operation on a node and one added after it. -/
def Continuation.binary {d : Draft} (x : Continuation d) (op : Nat → Nat → Op Nat)
    (y : Continuation x.draft)
    (h : (op x.node y.node).operands = [x.node, y.node] := by rfl) : Continuation d :=
  (x.andThen y).andThen (y.draft.extend
    (y.draft.graph.binary op x.node y.node (Nat.lt_of_lt_of_le x.node_lt y.le_size) y.node_lt h))

def draw : (t : Term) → (d : Draft) → Continuation d
  | .rational q, d => d.extend (d.graph.leaf (.rational q))
  | .pi, d => d.reuse .pi fun _ => d.extend (d.graph.leaf .pi)
  | .e, d => d.reuse .e fun _ => d.extend (d.graph.leaf .e)
  | .add a b, d => let x := draw a d; x.binary .add (draw b x.draft)
  | .sub a b, d => let x := draw a d; x.binary .sub (draw b x.draft)
  | .mul a b, d => let x := draw a d; x.binary .mul (draw b x.draft)
  | .neg a, d => (draw a d).unary .neg
  | .inverse a, d => (draw a d).unary .inverse
  | .sqrt a, d => (draw a d).unary .sqrt
  | .ln a, d => (draw a d).unary .ln
  | .exp a, d => (draw a d).unary .exp
  | .sin a, d => (draw a d).unary .sin
  | .cos a, d => (draw a d).unary .cos
  | .tan a, d =>
    let x := draw a d
    let s := x.unary .sin
    let c : Continuation s.draft :=
      s.draft.extend (s.draft.graph.unary .cos x.node
        (Nat.lt_of_lt_of_le x.node_lt (by
          simp [s, Continuation.unary, Continuation.andThen, extend, Graph.unary, Graph.push,
            Graph.size])))
    s.binary .mul (c.unary .inverse)
  | .arcsin a, d => (draw a d).unary .arcsin
  | .arccos a, d => (draw a d).unary .arccos
  | .arctan a, d => (draw a d).unary .arctan
  | .square a, d =>
    let x := draw a d
    x.andThen (x.draft.extend (x.draft.graph.binary .mul x.node x.node x.node_lt x.node_lt))
  | .power a n, d =>
    let x := draw a d
    x.andThen (x.draft.extend (x.draft.graph.power x.node x.node_lt n))
  | .named i a, d => d.reuse i fun _ => draw a d

end Draft

end Reckoner.Reals
