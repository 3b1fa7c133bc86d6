import Mathlib.Data.List.Basic
import Reckoner.Proofs.Parsing
/-!
Closing what is open. The parentheses that a derivation leaves open at the end of the tokens are as many
as the tokens count (`Derives.unclosed_eq`), and with that many more at the end the same phrase is
derived with all of them closed, whatever follows (`Derives.close`).
-/
namespace Reckoner

/-- An opening parenthesis, or a function with its own. -/
def Token.isOpening : Token → Bool
  | .operator .opening | .operator (.function _) => true
  | _ => false

namespace Expression

/-- How many parentheses are opened. -/
def opened (e : Expression) : Nat := e.countP Token.isOpening

/-- How many parentheses are closed. -/
def closed (e : Expression) : Nat := e.countP (Token.isKey .closing)

theorem opened_cons (t : Token) (e : Expression) :
    opened (t :: e) = opened e + if t.isOpening then 1 else 0 :=
  List.countP_cons

theorem closed_cons (t : Token) (e : Expression) :
    closed (t :: e) = closed e + if t.isKey .closing then 1 else 0 :=
  List.countP_cons

/-- How many parentheses are opened and not closed. -/
def unclosed (e : Expression) : Nat := e.opened - e.closed

end Expression

namespace Grammar

/-- How many parentheses of a tree are not closed. -/
def Tree.unclosed : Tree → Nat
  | .number _ | .collapsed _ | .constant _ => 0
  | .root _ t | .suffix _ t | .opposite t => t.unclosed
  | .group closed t | .call _ closed t => t.unclosed + if closed then 0 else 1
  | .power s t | .product _ s t | .quotient s t | .sum s t | .difference s t =>
    s.unclosed + t.unclosed

/-- The tree with all its parentheses closed. -/
def Tree.close : Tree → Tree
  | .number l => .number l
  | .collapsed x => .collapsed x
  | .constant c => .constant c
  | .root negative t => .root negative t.close
  | .group _ t => .group true t.close
  | .call f _ t => .call f true t.close
  | .suffix op t => .suffix op t.close
  | .power s t => .power s.close t.close
  | .opposite t => .opposite t.close
  | .product signed s t => .product signed s.close t.close
  | .quotient s t => .quotient s.close t.close
  | .sum s t => .sum s.close t.close
  | .difference s t => .difference s.close t.close

theorem Tree.value_close (mode : Mode) (t : Tree) : t.close.value mode = t.value mode := by
  induction t with
  | number | collapsed | constant => rfl
  | root _ t ih | group _ t ih | call _ _ t ih | suffix _ t ih | opposite t ih =>
    simp only [close, value, ih]
  | power s t ihs iht | product _ s t ihs iht | quotient s t ihs iht | sum s t ihs iht
  | difference s t ihs iht => simp only [close, value, ihs, iht]

namespace Part

/-- How many parentheses are not closed in what has been read of a part. -/
def unclosed : Part → Nat
  | .rule _ => 0
  | .suffixes x | .products x | .sums x => x.unclosed

/-- The part with all parentheses closed in what has been read of it. -/
def close : Part → Part
  | .rule r => .rule r
  | .suffixes x => .suffixes x.close
  | .products x => .products x.close
  | .sums x => .sums x.close

end Part

variable {p : Part} {ts mid rest : List Token} {t : Tree} {closed : Bool}

theorem Closes.unclosed_eq (h : Closes mid closed rest) :
    Expression.opened rest + Expression.closed mid + (if closed then 0 else 1) =
      Expression.opened mid + Expression.closed rest + 1 := by
  cases h with
  | closing =>
    simp only [Expression.opened_cons, Expression.closed_cons, Token.isOpening, Token.isKey,
      decide_true, if_true, Bool.false_eq_true, if_false]
    omega
  | ending => rfl

/-- Of the parentheses in what has been read, those of the tree that are not closed are left open. -/
theorem Derives.unclosed_eq (h : Derives p ts t rest) :
    Expression.opened ts + Expression.closed rest + p.unclosed =
      Expression.opened rest + Expression.closed ts + t.unclosed := by
  induction h with
  | group h hc ih | call h hc ih =>
    have hclose := hc.unclosed_eq
    simp only [Expression.opened_cons, Expression.closed_cons, Token.isOpening, Token.isKey,
      Part.unclosed, Tree.unclosed, reduceCtorEq, decide_false, Bool.false_eq_true, if_false,
      if_true] at ih ⊢
    omega
  | number | collapsed | constant | suffixesDone | productsDone | sumsDone =>
    simp [Expression.opened_cons, Expression.closed_cons, Token.isOpening, Token.isKey, Part.unclosed,
      Tree.unclosed]
  | root h ih | rootMinus h ih | suffixesMore h ih | opposite h ih =>
    simpa [Expression.opened_cons, Expression.closed_cons, Token.isOpening, Token.isKey,
      Part.unclosed, Tree.unclosed] using ih
  | factor h ih | signedFactor h ih => exact ih
  | suffix h h' ih ih' | term h h' ih ih' | expr h h' ih ih' | power h h' ih ih' | beside h h' ih ih'
  | times h h' ih ih' | dividedBy h h' ih ih' | plus h h' ih ih' | minus h h' ih ih' =>
    simp only [Expression.opened_cons, Expression.closed_cons, Token.isOpening, Token.isKey,
      Part.unclosed, Tree.unclosed, reduceCtorEq, decide_false, Bool.false_eq_true, if_false] at ih ih' ⊢
    omega

theorem Derives.unclosed_le (h : Derives p ts t rest) : p.unclosed ≤ t.unclosed := by
  induction h with
  | suffixesDone | productsDone | sumsDone => exact Nat.le_refl _
  | suffixesMore h ih => exact ih
  | times h h' ih ih' | dividedBy h h' ih ih' | beside h h' ih ih' | plus h h' ih ih'
  | minus h h' ih ih' => exact Nat.le_trans (Nat.le_add_right _ _) ih'
  | _ => exact Nat.zero_le _

/-- The parentheses to close are those of a first phrase and then those of what follows it. -/
theorem exists_closings {q : Part} {ts' : List Token} {x : Tree} (n : Nat) (zs : List Token)
    (h : Derives p ts x mid) (h' : Derives q ts' t rest)
    (hn : p.unclosed + q.unclosed + n = x.unclosed + t.unclosed) :
    ∃ m m', p.unclosed + m = x.unclosed ∧ q.unclosed + m' = t.unclosed ∧
      List.replicate n (Token.operator .closing) ++ zs =
        List.replicate m (.operator .closing) ++ (List.replicate m' (.operator .closing) ++ zs) := by
  obtain ⟨m, hm⟩ := Nat.le.dest h.unclosed_le
  obtain ⟨m', hm'⟩ := Nat.le.dest h'.unclosed_le
  obtain rfl : n = m + m' := by omega
  exact ⟨m, m', hm, hm', by rw [List.replicate_add, List.append_assoc]⟩

/-- With as many closing parentheses as are open, the same part is read with all of them closed, and what
follows stays. -/
theorem Derives.close {n : Nat} (zs : List Token) (h : Derives p ts t rest)
    (hn : p.unclosed + n = t.unclosed) :
    Derives p.close (ts ++ (List.replicate n (.operator .closing) ++ zs)) t.close (rest ++ zs) := by
  induction h generalizing n zs with
  | number | collapsed | constant =>
    obtain rfl : n = 0 := by simpa [Part.unclosed, Tree.unclosed] using hn
    constructor
  | suffixesDone | productsDone | sumsDone =>
    obtain rfl : n = 0 := by simpa [Part.unclosed] using hn
    constructor
  | root h ih => exact .root (ih zs hn)
  | rootMinus h ih => exact .rootMinus (ih zs hn)
  | @group ts mid rest t closed h hc ih =>
    cases hc with
    | closing => exact .group (ih zs hn) .closing
    | ending =>
      -- the last of the parentheses closes this one
      obtain rfl : n = t.unclosed + 1 := (Nat.zero_add n).symm.trans hn
      rw [List.replicate_succ', List.append_assoc]
      exact .group (ih _ (Nat.zero_add _)) .closing
  | @call f ts mid rest t closed h hc ih =>
    cases hc with
    | closing => exact .call (ih zs hn) .closing
    | ending =>
      obtain rfl : n = t.unclosed + 1 := (Nat.zero_add n).symm.trans hn
      rw [List.replicate_succ', List.append_assoc]
      exact .call (ih _ (Nat.zero_add _)) .closing
  | suffixesMore h ih => exact .suffixesMore (ih zs hn)
  | factor h ih => exact .factor (ih zs hn)
  | signedFactor h ih => exact .signedFactor (ih zs hn)
  | opposite h ih => exact .opposite (ih zs hn)
  | power h h' ih ih' =>
    obtain ⟨m, m', hm, hm', hsplit⟩ := exists_closings n zs h h' hn
    rw [hsplit]
    exact .power (ih _ hm) (ih' zs hm')
  | suffix h h' ih ih' | term h h' ih ih' | expr h h' ih ih' | times h h' ih ih' | dividedBy h h' ih ih'
  | beside h h' ih ih' | plus h h' ih ih' | minus h h' ih ih' =>
    obtain ⟨m, m', hm, hm', hsplit⟩ := exists_closings n zs h h' (by
      simp only [Part.unclosed, Tree.unclosed] at hn ⊢
      omega)
    have hfirst := ih (List.replicate m' (.operator .closing) ++ zs) hm
    have hrest := ih' zs hm'
    rw [hsplit]
    constructor <;> assumption

theorem IsExpression.unclosed_eq {e : Expression} (h : IsExpression e t) :
    e.unclosed = t.unclosed := by
  have hcount := Derives.unclosed_eq h
  simp only [Expression.opened, Expression.closed, List.countP_nil, Part.unclosed] at hcount
  unfold Expression.unclosed Expression.opened Expression.closed
  omega

/-- An expression in parentheses, with all that are open in it closed. -/
theorem IsExpression.group {e : Expression} (h : IsExpression e t) (zs : List Token) :
    Derives (.rule .unary)
      (.operator .opening :: (e ++ (List.replicate (e.unclosed + 1) (.operator .closing) ++ zs)))
      (.group true t.close) zs := by
  have hclose := Derives.close (.operator .closing :: zs) h (Nat.zero_add t.unclosed)
  rw [List.replicate_succ', List.append_assoc, h.unclosed_eq]
  exact .group hclose .closing

end Grammar

end Reckoner
