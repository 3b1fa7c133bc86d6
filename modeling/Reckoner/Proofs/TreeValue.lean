import Reckoner.Proofs.Derivation
import Reckoner.Proofs.Recall
/-!
The value of a tree, put together from the values of its parts, and how much room the rules of the
grammar need to read it.
-/
namespace Reckoner

open Reals

/-- The power, however deeply its products nest. -/
def Dual.raise (limit : Int) (x y : Dual) : Except Failure Dual := do
  match ← (Exact.pow limit x.exact y.exact).mapError .arithmetic with
  | some q => return ofRat q
  | none =>
    match Exact.toInt? y.exact with
    | some n => return ⟨x.real.intPower n, none⟩
    | none => return ⟨.exp (.mul (.ln x.real) y.real), none⟩

/-- How deeply the products of a power nest. -/
def Dual.exponentDepth (y : Dual) : Nat :=
  match Exact.toInt? y.exact with
  | some n => Reals.Graph.powerDepth n.natAbs
  | none => 0

theorem Dual.power_eq (limit : Int) (depth : Nat) (x y : Dual) :
    x.power limit depth y = x.raise limit y ∨
      depth < y.exponentDepth ∧ x.power limit depth y = .error .nesting := by
  unfold power raise exponentDepth
  rcases Exact.pow limit x.exact y.exact with e | (_ | q)
  · exact .inl rfl
  · cases Exact.toInt? y.exact with
    | none => exact .inl rfl
    | some n =>
      by_cases hdepth : depth < Reals.Graph.powerDepth n.natAbs
      · exact .inr ⟨hdepth, if_pos hdepth⟩
      · exact .inl (if_neg hdepth)
  · exact .inl rfl

/-- A computation that can fail, but only because a number has no value. -/
def FailsInValue {α : Type} (x : Recall Failure α) : Prop :=
  ∀ m e, (x m).1 = .error e → (∃ cause, e = .arithmetic cause) ∨ ∃ cause, e = .numeral cause

namespace FailsInValue

variable {α β : Type}

theorem pure (v : α) : FailsInValue (Pure.pure v) := by
  intro m e h
  cases h

theorem arithmetic (x : Recall ArithmeticError α) : FailsInValue (x.mapError .arithmetic) := by
  intro m e h
  obtain ⟨cause, -, rfl⟩ := mapError_eq_error_iff.1 h
  exact .inl ⟨cause, rfl⟩

theorem ofArithmetic (x : Except ArithmeticError α) :
    FailsInValue (.ofExcept (x.mapError .arithmetic)) :=
  arithmetic (.ofExcept x)

theorem numeral (x : Except Text.NumeralError α) :
    FailsInValue (.ofExcept (x.mapError .numeral)) := by
  intro m e h
  obtain ⟨cause, -, rfl⟩ := mapError_eq_error_iff.1 h
  exact .inr ⟨cause, rfl⟩

theorem bind {x : Recall Failure α} {f : α → Recall Failure β} (hx : FailsInValue x)
    (hf : ∀ v, FailsInValue (f v)) : FailsInValue (x >>= f) := by
  intro m e h
  rw [Recall.bind_apply] at h
  rcases hxm : x m with ⟨e' | v, m'⟩
  · rw [hxm] at h
    obtain rfl := Except.error.inj h
    exact hx m e' (congrArg Prod.fst hxm)
  · rw [hxm] at h
    exact hf v m' e h

end FailsInValue

theorem Dual.raise_failsInValue (limit : Int) (x y : Dual) :
    FailsInValue (.ofExcept (x.raise limit y)) := by
  unfold raise
  rw [Recall.ofExcept_bind]
  refine .bind (.ofArithmetic _) fun q => ?_
  cases q with
  | some q => exact .pure _
  | none => cases Exact.toInt? y.exact <;> exact .pure _

namespace Grammar

theorem applySuffix_eq (mode : Mode) (op : SuffixOperator) (x : Dual) :
    applySuffix mode op x = (suffixValue mode op x).mapError .abort := rfl

/-- The value of a tree: each part's from the values of the parts inside it, from left to right. -/
def Tree.value (mode : Mode) : Tree → Recall Failure Dual
  | .number l => .ofExcept ((literalValue l).mapError .numeral)
  | .collapsed x => return x
  | .constant .pi => return ⟨.pi, none⟩
  | .constant .e => return ⟨.e, none⟩
  | .root negative t => do
    let x ← t.value mode
    .ofExcept (((if negative then x.neg else x).sqrt).mapError .arithmetic)
  | .group _ t => t.value mode
  | .call f _ t => do
    let x ← t.value mode
    .ofExcept ((x.apply mode.degrees f).mapError .arithmetic)
  | .suffix op t => do suffixValue mode op (← t.value mode)
  | .power s t => do
    let x ← s.value mode
    let y ← t.value mode
    .ofExcept (x.raise mode.limit y)
  | .opposite t => do return (← t.value mode).neg
  | .product _ s t => do
    let x ← s.value mode
    let y ← t.value mode
    return x.mul mode.limit y
  | .quotient s t => do
    let x ← s.value mode
    let y ← t.value mode
    .ofExcept ((x.div mode.limit y).mapError .arithmetic)
  | .sum s t => do
    let x ← s.value mode
    let y ← t.value mode
    return x.add mode.limit y
  | .difference s t => do
    let x ← s.value mode
    let y ← t.value mode
    return x.sub mode.limit y

/-- The value of an operation between two operands, if there is one, is as all its results are, whatever
the operands. -/
theorem Tree.value_of_binary {mode : Mode} {u s t : Tree} {f : Dual → Dual → Except Failure Dual}
    {P : Dual → Prop} (hu : u.value mode = (do .ofExcept (f (← s.value mode) (← t.value mode))))
    (hf : ∀ x y z, f x y = .ok z → P z) (m : Memory) (v : Dual) (m' : Memory)
    (hv : u.value mode m = (.ok v, m')) : P v := by
  rw [hu] at hv
  obtain ⟨x, m₁, -, hv⟩ := run_bind_eq_ok_iff.1 hv
  obtain ⟨y, m₂, -, hv⟩ := run_bind_eq_ok_iff.1 hv
  exact hf x y v (Recall.ofExcept_eq_ok_iff.1 hv).1

/-- The memory that the value of a tree leaves, also where there is none. -/
def Tree.after (mode : Mode) (t : Tree) (m : Memory) : Memory := (t.value mode m).2

/-- How deeply rules nest where a tree is read as a sum. A rule that binds more tightly needs as much
less as it stands below. -/
def Tree.room (mode : Mode) : Tree → Memory → Nat
  | .number _, _ | .collapsed _, _ | .constant _, _ => 6
  | .root _ t, m => t.room mode m + 1
  | .group _ t, m | .call _ _ t, m => t.room mode m + 6
  | .suffix _ t, m | .opposite t, m => t.room mode m
  | .power s t, m =>
    max (s.room mode m) (max (t.room mode (s.after mode m) + 2)
      (match (t.value mode (s.after mode m)).1 with
      | .ok y => y.exponentDepth + 4
      | .error _ => 0))
  | .product _ s t, m | .quotient s t, m | .sum s t, m | .difference s t, m =>
    max (s.room mode m) (t.room mode (s.after mode m))

theorem Tree.six_le_room (mode : Mode) (t : Tree) (m : Memory) : 6 ≤ t.room mode m := by
  induction t generalizing m with
  | number | collapsed | constant => exact Nat.le_refl 6
  | root _ t ih | group _ t ih | call _ _ t ih => exact Nat.le_add_right_of_le (ih m)
  | suffix _ t ih | opposite t ih => exact ih m
  | power s t ihs iht | product _ s t ihs iht | quotient s t ihs iht | sum s t ihs iht
  | difference s t ihs iht => exact Nat.le_trans (ihs m) (Nat.le_max_left _ _)

theorem suffixValue_failsInValue (mode : Mode) (op : SuffixOperator) (x : Dual) :
    FailsInValue (suffixValue mode op x) := by
  cases op with
  | factorial => exact .arithmetic _
  | square | percent => exact .pure _

theorem Tree.value_failsInValue (mode : Mode) (t : Tree) : FailsInValue (t.value mode) := by
  induction t with
  | number l => exact .numeral _
  | collapsed x => exact .pure x
  | constant c => cases c <;> exact .pure _
  | group closed t ih => exact ih
  | root negative t ih | call f closed t ih => exact .bind ih fun x => .ofArithmetic _
  | suffix op t ih => exact .bind ih fun x => suffixValue_failsInValue mode op x
  | opposite t ih => exact .bind ih fun x => .pure _
  | power s t ihs iht => exact .bind ihs fun x => .bind iht fun y => x.raise_failsInValue _ y
  | quotient s t ihs iht => exact .bind ihs fun x => .bind iht fun y => .ofArithmetic _
  | product signed s t ihs iht | sum s t ihs iht | difference s t ihs iht =>
    exact .bind ihs fun x => .bind iht fun y => .pure _

end Grammar

end Reckoner
