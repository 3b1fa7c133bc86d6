import Reckoner.BigFloat
/-!
Graphs of real numbers. A node is a rational number, a constant, or an operation on nodes of lower
number; a node may be an operand of many others.
-/
namespace Reckoner.Reals

/-- An operation on operands of type `ι`. -/
inductive Op (ι : Type) where
  | rational (q : Rat)
  | pi
  | e
  | add (a b : ι)
  | sub (a b : ι)
  | mul (a b : ι)
  | neg (a : ι)
  | inverse (a : ι)
  | sqrt (a : ι)
  | ln (a : ι)
  | exp (a : ι)
  | sin (a : ι)
  | cos (a : ι)
  | arcsin (a : ι)
  | arccos (a : ι)
  | arctan (a : ι)
  deriving Repr

namespace Op

def operands {ι : Type} : Op ι → List ι
  | rational _ | pi | e => []
  | add a b | sub a b | mul a b => [a, b]
  | neg a | inverse a | sqrt a | ln a | exp a | sin a | cos a | arcsin a | arccos a | arctan a => [a]

/-- The same operation, its operands known to lie below `n`. -/
def below {n : Nat} (op : Op Nat) (h : ∀ c ∈ op.operands, c < n) : Op (Fin n) :=
  match op, h with
  | rational q, _ => .rational q
  | pi, _ => .pi
  | e, _ => .e
  | add a b, h => .add ⟨a, h a (by simp [operands])⟩ ⟨b, h b (by simp [operands])⟩
  | sub a b, h => .sub ⟨a, h a (by simp [operands])⟩ ⟨b, h b (by simp [operands])⟩
  | mul a b, h => .mul ⟨a, h a (by simp [operands])⟩ ⟨b, h b (by simp [operands])⟩
  | neg a, h => .neg ⟨a, h a (by simp [operands])⟩
  | inverse a, h => .inverse ⟨a, h a (by simp [operands])⟩
  | sqrt a, h => .sqrt ⟨a, h a (by simp [operands])⟩
  | ln a, h => .ln ⟨a, h a (by simp [operands])⟩
  | exp a, h => .exp ⟨a, h a (by simp [operands])⟩
  | sin a, h => .sin ⟨a, h a (by simp [operands])⟩
  | cos a, h => .cos ⟨a, h a (by simp [operands])⟩
  | arcsin a, h => .arcsin ⟨a, h a (by simp [operands])⟩
  | arccos a, h => .arccos ⟨a, h a (by simp [operands])⟩
  | arctan a, h => .arctan ⟨a, h a (by simp [operands])⟩

end Op

/-- Numbered operations, the operands of each before it. -/
structure Graph where
  ops : Array (Op Nat)
  ordered : ∀ (i : Nat) (h : i < ops.size), ∀ c ∈ ops[i].operands, c < i

namespace Graph

def empty : Graph := ⟨#[], by simp⟩

def size (g : Graph) : Nat := g.ops.size

/-- A graph that extends `g`, and one of its nodes. -/
structure Extension (g : Graph) where
  graph : Graph
  node : Nat
  node_lt : node < graph.size
  le_size : g.size ≤ graph.size

/-- A node that is already there. -/
def stay (g : Graph) (node : Nat) (h : node < g.size) : Extension g :=
  ⟨g, node, h, Nat.le_refl _⟩

/-- Adds an operation on nodes of the graph. -/
def push (g : Graph) (op : Op Nat) (h : ∀ c ∈ op.operands, c < g.size) : Extension g where
  graph :=
    { ops := g.ops.push op
      ordered := by
        intro i hi c hc
        by_cases hlt : i < g.ops.size
        · rw [Array.getElem_push_lt hlt] at hc
          exact g.ordered i hlt c hc
        · have hi' : i = g.ops.size := by
            simp only [Array.size_push] at hi
            omega
          subst hi'
          rw [Array.getElem_push_eq] at hc
          exact h c hc }
  node := g.size
  node_lt := by simp [size]
  le_size := by simp [size]

def leaf (g : Graph) (op : Op Nat) (h : op.operands = [] := by rfl) : Extension g :=
  g.push op (by simp [h])

def unary (g : Graph) (op : Nat → Op Nat) (a : Nat) (ha : a < g.size)
    (h : (op a).operands = [a] := by rfl) : Extension g :=
  g.push (op a) (by simp [h, ha])

def binary (g : Graph) (op : Nat → Nat → Op Nat) (a b : Nat) (ha : a < g.size) (hb : b < g.size)
    (h : (op a b).operands = [a, b] := by rfl) : Extension g :=
  g.push (op a b) (by simp [h, ha, hb])

/-- Follows an extension by an extension of it. -/
def Extension.followedBy {g : Graph} (x : Extension g) (y : Extension x.graph) : Extension g :=
  ⟨y.graph, y.node, y.node_lt, Nat.le_trans x.le_size y.le_size⟩

/-- A natural power of a node by repeated squaring: an even power is the square of half of it, an odd
one the power before it times the node. -/
def natPower (g : Graph) (base : Nat) (h : base < g.size) (n : Nat) : Extension g :=
  if n = 0 then g.leaf (.rational 1)
  else if n = 1 then g.stay base h
  else if n % 2 = 1 then
    let x := g.natPower base h (n - 1)
    x.followedBy (x.graph.binary .mul x.node base x.node_lt (Nat.lt_of_lt_of_le h x.le_size))
  else
    let x := g.natPower base h (n / 2)
    x.followedBy (x.graph.binary .mul x.node x.node x.node_lt x.node_lt)
termination_by n

/-- An integer power of a node; a negative one is the inverse of the opposite power. -/
def power (g : Graph) (base : Nat) (h : base < g.size) (n : Int) : Extension g :=
  let x := g.natPower base h n.natAbs
  if n < 0 then x.followedBy (x.graph.unary .inverse x.node x.node_lt) else x

/-- How deeply `natPower` nests for an exponent: once for each binary digit, and once more for each
that is one. -/
def powerDepth (n : Nat) : Nat :=
  if n ≤ 1 then 1 else 1 + n % 2 + powerDepth (n / 2)

end Graph

end Reckoner.Reals
