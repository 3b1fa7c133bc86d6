import Reckoner.Evaluation
import Reckoner.Expression
import Reckoner.Proofs.Leniency
import Reckoner.Proofs.Steadiness
import Reckoner.Proofs.Unsettled
/-!
Factors side by side. A multiplication sign can be put between an operand and a factor that starts right
after it, at any depth and in any number of places, and nothing changes: neither the value nor the error
(`evaluateWithin_of_signed`).
-/
namespace Reckoner

open Reals

/-- Whether an operand can end with the token. -/
def Token.endsOperand (t : Token) : Bool := Expression.canEnd t || t.isKey .closing

namespace Grammar

/-- The tokens on the left, and the same tokens with signs between some operands and the factors that
start after them. -/
inductive Signed : List Token → List Token → Prop where
  | nil : Signed [] []
  | same {ts ts' : List Token} (t : Token) (h : Signed ts ts') : Signed (t :: ts) (t :: ts')
  | sign {t : Token} {ts ts' : List Token} (ht : t.endsOperand) (hts : canStartFactor ts)
      (h : Signed ts ts') : Signed (t :: ts) (t :: .operator (.binary .times) :: ts')

/-- Such tokens after an operand, perhaps with a sign ahead. -/
inductive SignedAfter : List Token → List Token → Prop where
  | plain {ts ts' : List Token} (h : Signed ts ts') : SignedAfter ts ts'
  | sign {ts ts' : List Token} (hts : canStartFactor ts) (h : Signed ts ts') :
      SignedAfter ts (.operator (.binary .times) :: ts')

theorem Signed.refl (ts : List Token) : Signed ts ts := by
  induction ts with
  | nil => exact .nil
  | cons t ts ih => exact .same t ih

/-- One sign. -/
theorem Signed.between {t : Token} {ts : List Token} (before : List Token) (ht : t.endsOperand)
    (hts : canStartFactor ts) :
    Signed (before ++ t :: ts) (before ++ t :: .operator (.binary .times) :: ts) := by
  induction before with
  | nil => exact .sign ht hts (.refl ts)
  | cons s before ih => exact .same s ih

theorem SignedAfter.eq_nil_iff {ts ts' : List Token} (h : SignedAfter ts ts') :
    ts = [] ↔ ts' = [] := by
  cases h with
  | plain h => cases h <;> simp
  | sign hts h => cases ts <;> simp_all [canStartFactor]

/-! What is seen of a token that ends an operand, and where a factor can start. -/

section

variable {t : Token} {ts : List Token}

theorem opens_of_endsOperand (ht : t.endsOperand) : Parallel.opens t = false := by
  cases t with
  | operator k => cases k <;> first | rfl | cases ht
  | _ => rfl

theorem isKey_of_endsOperand (ht : t.endsOperand) (op : BinaryOperator) :
    t.isKey (.binary op) = false := by
  cases t with
  | operator k => cases k <;> first | rfl | cases ht
  | _ => rfl

theorem after?_of_endsOperand (ht : t.endsOperand) (op : BinaryOperator) (ts : List Token) :
    after? (.binary op) (t :: ts) = none := by
  cases hafter : after? (.binary op) (t :: ts) with
  | none => rfl
  | some rest =>
    obtain rfl := (List.cons.inj (after?_eq_some_iff.1 hafter)).1
    cases ht

theorem nextFactor?_of_endsOperand (ht : t.endsOperand) (ts : List Token) :
    nextFactor? (t :: ts) = if canStartFactor (t :: ts) then some (false, t :: ts) else none := by
  simp only [nextFactor?, isKey_of_endsOperand ht, Bool.false_eq_true, if_false]

theorem nextTerm?_of_endsOperand (ht : t.endsOperand) (ts : List Token) :
    nextTerm? (t :: ts) = none := by
  simp only [nextTerm?, isKey_of_endsOperand ht, Bool.false_eq_true, if_false]

theorem ne_of_canStartFactor {k : Key} (hk : canStartFactor [.operator k] = false)
    (hts : canStartFactor ts) (rest : List Token) : ts ≠ .operator k :: rest := by
  rintro rfl
  rw [(sameToken_refl (.operator k)).canStartFactor rest [], hk] at hts
  cases hts

theorem after?_of_canStartFactor {k : Key} (hk : canStartFactor [.operator k] = false)
    (hts : canStartFactor ts) : after? k ts = none := by
  cases hafter : after? k ts with
  | none => rfl
  | some rest => exact absurd (after?_eq_some_iff.1 hafter) (ne_of_canStartFactor hk hts rest)

theorem suffix?_of_canStartFactor (hts : canStartFactor ts) : suffix? ts = none := by
  cases hsuffix : suffix? ts with
  | none => rfl
  | some s => exact absurd (suffix?_eq_some_iff.1 hsuffix) (ne_of_canStartFactor rfl hts s.2)

theorem not_isKey_of_canStartFactor (hts : canStartFactor (t :: ts)) (op : BinaryOperator) :
    ¬ t.isKey (.binary op) := by
  intro hkey
  exact ne_of_canStartFactor rfl hts ts (congrArg (· :: ts) (isKey_iff.1 hkey))

theorem nextFactor?_of_canStartFactor (hts : canStartFactor ts) :
    nextFactor? ts = some (false, ts) := by
  cases ts with
  | nil => cases hts
  | cons t ts => simp only [nextFactor?, if_neg (not_isKey_of_canStartFactor hts _), if_pos hts]

theorem nextTerm?_of_canStartFactor (hts : canStartFactor ts) : nextTerm? ts = none := by
  cases ts with
  | nil => cases hts
  | cons t ts => simp only [nextTerm?, if_neg (not_isKey_of_canStartFactor hts _)]

end

/-- The readings of tokens without and with signs. -/
def juxtaposed : Parallel where
  operand := Signed
  after := SignedAfter
  formula := Eq
  memory := Eq
  excusedLeft _ := False
  excusedRight _ := False

theorem juxtaposed_aligned : juxtaposed.Aligned where
  congruence := .eq
  minus h := by
    cases h with
    | nil => exact .none
    | same t h => exact (sameToken_refl _).after? _ h
    | sign ht hts h =>
      rw [after?_of_endsOperand ht, after?_of_endsOperand ht]
      exact .none
  suffix h := by
    cases h with
    | plain h =>
      cases h with
      | nil => exact .none
      | same t h => exact (sameToken_refl _).suffix? (.plain h)
      | sign ht hts h => exact (sameToken_refl _).suffix? (.sign hts h)
    | sign hts h =>
      rw [suffix?_of_canStartFactor hts]
      exact .none
  power h := by
    cases h with
    | plain h =>
      cases h with
      | nil => exact .none
      | same t h => exact (sameToken_refl _).after? _ h
      | sign ht hts h =>
        rw [after?_of_endsOperand ht, after?_of_endsOperand ht]
        exact .none
    | sign hts h =>
      rw [after?_of_canStartFactor rfl hts]
      exact .none
  factor h := by
    cases h with
    | plain h =>
      cases h with
      | nil => exact .none
      | same t h => exact (sameToken_refl _).nextFactor? h (.same t h)
      | @sign t ts ts' ht hts h =>
        rw [nextFactor?_of_endsOperand ht, nextFactor?_of_endsOperand ht,
          (sameToken_refl t).canStartFactor (.operator (.binary .times) :: ts') ts]
        split
        · exact .some ⟨rfl, .sign ht hts h⟩
        · exact .none
    | sign hts h =>
      -- without a sign and with one, the same factor comes next
      rw [nextFactor?_of_canStartFactor hts]
      exact .some ⟨rfl, h⟩
  term h := by
    cases h with
    | plain h =>
      cases h with
      | nil => exact .none
      | same t h => exact (sameToken_refl _).nextTerm? h
      | sign ht hts h =>
        rw [nextTerm?_of_endsOperand ht, nextTerm?_of_endsOperand ht]
        exact .none
    | sign hts h =>
      rw [nextTerm?_of_canStartFactor hts]
      exact .none
  closing h := by
    cases h with
    | plain h =>
      cases h with
      | nil => exact .plain .nil
      | same t h => exact (sameToken_refl _).skipClosing (.plain h) (.plain (.same t h))
      | sign ht hts h => exact (sameToken_refl _).skipClosing (.sign hts h) (.plain (.sign ht hts h))
    | sign hts h =>
      rw [skipClosing_eq, after?_of_canStartFactor rfl hts]
      exact .sign hts h

theorem juxtaposed_lawful (mode : Mode) : juxtaposed.Lawful mode where
  toAligned := juxtaposed_aligned
  unary hsub h hm := by
    cases h with
    | nil => exact .failure hm
    | same t h =>
      exact juxtaposed_aligned.unary_cons hsub (sameToken_refl t) (fun _ => .plain h) (fun _ => h) hm
    | @sign t _ _ ht hts h =>
      refine juxtaposed_aligned.unary_cons hsub (sameToken_refl t) (fun _ => .sign hts h)
        (fun hopens => ?_) hm
      rw [opens_of_endsOperand ht] at hopens
      cases hopens
  factorial _ _ _ _ _ _ hxy hm := factorial_same hxy hm

variable {mode : Mode} {ts ts' : List Token}

/-- The same outcome with signs as without. -/
theorem evaluateWithin_of_signed (depth : Nat) (h : Signed ts ts') :
    evaluateWithin mode depth ts'.length ts' = evaluateWithin mode depth ts.length ts := by
  funext m
  have hmatches := (juxtaposed_lawful mode).parse depth .expr h (rfl : m = m)
  rw [evaluateWithin_length, evaluateWithin_length]
  generalize parse mode depth .expr ts m = o, parse mode depth .expr ts' m = o' at hmatches ⊢
  obtain ⟨o, m₁⟩ := o
  obtain ⟨o', m₁'⟩ := o'
  obtain ⟨s, h, -⟩ | ⟨s, h, -⟩ | ⟨h, hm⟩ :=
    hmatches.settle SignedAfter.eq_nil_iff (iff_of_true rfl rfl)
  · exact h.elim
  · exact h.elim
  · exact Prod.ext (EndAlike.eq_iff.1 (h.mono fun _ _ => Dual.like_eq_iff.1)).symm hm.symm

end Grammar

namespace Arithmetic

open Grammar

/-- A multiplication sign between an operand and a factor that starts right after it changes nothing:
from the same memory, and also from two sound ones, if the factorials in the expression are settled. -/
theorem evaluate_insert_times (a : Arithmetic) (degrees : Bool) (before after : Expression)
    {last first : Token} (hlast : last.endsOperand) (hfirst : canStartFactor (first :: after)) :
    let e := before ++ last :: first :: after
    let signed := before ++ last :: .operator (.binary .times) :: first :: after
    a.evaluate degrees true signed = a.evaluate degrees true e ∧
      ∀ names names' m m', a.kernel.Accurate → m.Sound names → m'.Sound names' →
        (∀ t ∈ e, t.Consistent names ∧ t.Consistent names') → Steady (a.mode degrees) names e →
        (a.evaluate degrees true signed m').1 = (a.evaluate degrees true e m).1 := by
  intro e signed
  have hsame : a.evaluate degrees true signed = a.evaluate degrees true e :=
    evaluateWithin_of_signed nestingLimit (Signed.between before hlast hfirst)
  refine ⟨hsame, fun names names' m m' hk hm hm' he hsteady => ?_⟩
  rw [hsame, a.evaluate_eq_of_steady degrees true hk hm hm' he hsteady]

/-- 2 ^ 6 ÷ 2²(1 + 3 is 64, with a sign before the parenthesis too. -/
theorem evaluate_insert_times_divided :
    let a : Arithmetic := ⟨10000, Elementary.kernel⟩
    let before : Expression := [.literal ⟨"2", false, ""⟩, .operator (.binary .power),
      .literal ⟨"6", false, ""⟩, .operator (.binary .over), .literal ⟨"2", false, ""⟩]
    let last : Token := .operator (.suffix .square)
    let first : Token := .operator .opening
    let after : Expression := [.literal ⟨"1", false, ""⟩, .operator (.binary .plus),
      .literal ⟨"3", false, ""⟩]
    last.endsOperand ∧ canStartFactor (first :: after) ∧
      a.evaluate false true (before ++ last :: first :: after) Memory.empty =
        (.ok (.ofRat 64), Memory.empty) ∧
      a.evaluate false true (before ++ last :: .operator (.binary .times) :: first :: after)
        Memory.empty = (.ok (.ofRat 64), Memory.empty) := by
  intro a before last first after
  have hlast : last.endsOperand := rfl
  have hfirst : canStartFactor (first :: after) := rfl
  have hvalue : a.evaluate false true (before ++ last :: first :: after) Memory.empty =
      (.ok (.ofRat 64), Memory.empty) := by
    cbv
  have hsame := (evaluate_insert_times a false before after hlast hfirst).1
  exact ⟨hlast, hfirst, hvalue, (congrFun hsame Memory.empty).trans hvalue⟩

/-- Two factorials side by side have a product; with a sign between them, and evaluated after that, they
have none, as one of them is not settled. -/
theorem evaluate_insert_times_again :
    let a : Arithmetic := ⟨10000, Elementary.kernel⟩
    let before : Expression := Unsettled.near.dropLast
    let last : Token := .operator (.suffix .factorial)
    let first : Token := .operator .opening
    let after : Expression := Unsettled.vanishing.tail
    last.endsOperand ∧ canStartFactor (first :: after) ∧
      ∃ m, a.evaluate false true (before ++ last :: first :: after) Memory.empty =
          (.ok (.ofRat 6), m) ∧
        (a.evaluate false true (before ++ last :: .operator (.binary .times) :: first :: after) m).1 =
          .error (.arithmetic .factorialOfNonInteger) :=
  ⟨rfl, rfl, Unsettled.evaluate_twice Unsettled.juxtaposed_isExpression Unsettled.tokens_isExpression
    rfl rfl (fun _ => Nat.le_of_ble_eq_true rfl) fun _ => Nat.le_of_ble_eq_true rfl⟩

end Arithmetic

end Reckoner
