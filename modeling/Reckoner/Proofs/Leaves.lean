import Reckoner.Proofs.Derivation
/-!
The leaves of a tree. They are the tokens that a phrase was derived from, without those that only hold it
together, in the order they were read (`Derives.leaves_eq`); so what holds of tokens one by one holds of
the leaves of every phrase among them.
-/
namespace Reckoner.Grammar

/-- The leaf that a token is. -/
def leaf? : Token → Option Tree
  | .literal l => some (.number l)
  | .collapsed _ value _ _ _ => some (.collapsed value)
  | .operator (.constant c) => some (.constant c)
  | .operator _ => none

/-- The leaves of a tree, from left to right. -/
def Tree.leaves : Tree → List Tree
  | .number l => [.number l]
  | .collapsed x => [.collapsed x]
  | .constant c => [.constant c]
  | .root _ t | .group _ t | .call _ _ t | .suffix _ t | .opposite t => t.leaves
  | .power s t | .product _ s t | .quotient s t | .sum s t | .difference s t => s.leaves ++ t.leaves

/-- The leaves of what has been read of a part. -/
def Part.leaves : Part → List Tree
  | .rule _ => []
  | .suffixes x | .products x | .sums x => x.leaves

variable {p : Part} {ts mid rest : List Token} {x t : Tree} {r : Rule}

theorem Closes.leaves_eq {closed : Bool} (h : Closes mid closed rest) :
    mid.filterMap leaf? = rest.filterMap leaf? := by
  cases h <;> rfl

/-- A tree has the leaves that have been read. -/
theorem Derives.leaves_eq (h : Derives p ts t rest) :
    p.leaves ++ ts.filterMap leaf? = t.leaves ++ rest.filterMap leaf? := by
  induction h with
  | group h hc ih | call h hc ih =>
    rw [← hc.leaves_eq]
    exact ih
  | number | collapsed | constant | suffixesDone | productsDone | sumsDone => rfl
  | root h ih | rootMinus h ih | suffixesMore h ih | opposite h ih | factor h ih
  | signedFactor h ih => exact ih
  | suffix h h' ih ih' | term h h' ih ih' | expr h h' ih ih' => exact ih.trans ih'
  | power h h' ih ih' =>
    rw [Tree.leaves, List.append_assoc, ← ih']
    exact ih
  | @times _ _ _ x _ _ h h' ih ih' | @dividedBy _ _ _ x _ _ h h' ih ih'
  | @beside _ _ _ x _ _ h h' ih ih' | @plus _ _ _ x _ _ h h' ih ih'
  | @minus _ _ _ x _ _ h h' ih ih' =>
    have hmore := congrArg (x.leaves ++ ·) ih
    exact hmore.trans ((List.append_assoc ..).symm.trans ih')

theorem Derives.exists_of_mem_leaves (h : Derives (.rule r) ts t rest) (hx : x ∈ t.leaves) :
    ∃ a ∈ ts, leaf? a = some x := by
  have hmem : x ∈ ts.filterMap leaf? := by
    rw [show ts.filterMap leaf? = t.leaves ++ rest.filterMap leaf? from h.leaves_eq]
    exact List.mem_append_left _ hx
  exact List.mem_filterMap.1 hmem

end Reckoner.Grammar
