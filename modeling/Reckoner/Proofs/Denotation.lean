import Mathlib.Analysis.SpecialFunctions.Trigonometric.Arctan
import Mathlib.Analysis.Real.Sqrt
import Reckoner.Reals.Term
/-!
The real number of a formula. A formula denotes its value if every operation in it is defined at its
operands; it is regular with a margin if these also stay so far away from the poles.
-/
namespace Reckoner.Reals.Term

/-- The value of a formula. It means something only where the formula is defined. -/
noncomputable def value : Term → ℝ
  | rational q => q
  | pi => Real.pi
  | e => Real.exp 1
  | add a b => a.value + b.value
  | sub a b => a.value - b.value
  | mul a b => a.value * b.value
  | neg a => -a.value
  | inverse a => a.value⁻¹
  | sqrt a => Real.sqrt a.value
  | ln a => Real.log a.value
  | exp a => Real.exp a.value
  | sin a => Real.sin a.value
  | cos a => Real.cos a.value
  | tan a => Real.tan a.value
  | arcsin a => Real.arcsin a.value
  | arccos a => Real.arccos a.value
  | arctan a => Real.arctan a.value
  | square a => a.value * a.value
  | power a n => a.value ^ n
  | named _ a => a.value

/-- Whether every operation of a formula is defined at its operands. The zeroth power is one, whatever
its base. -/
def IsDefined : Term → Prop
  | rational _ | pi | e => True
  | add a b | sub a b | mul a b => a.IsDefined ∧ b.IsDefined
  | neg a | exp a | sin a | cos a | arctan a | square a | named _ a => a.IsDefined
  | inverse a => a.IsDefined ∧ a.value ≠ 0
  | sqrt a => a.IsDefined ∧ 0 ≤ a.value
  | ln a => a.IsDefined ∧ 0 < a.value
  | tan a => a.IsDefined ∧ Real.cos a.value ≠ 0
  | arcsin a | arccos a => a.IsDefined ∧ -1 ≤ a.value ∧ a.value ≤ 1
  | power a n => n ≠ 0 → a.IsDefined ∧ (n < 0 → a.value ≠ 0)

/-- Whether a formula is defined, and no operand in it is nearer to a pole than a margin. -/
def IsRegular (margin : ℝ) : Term → Prop
  | rational _ | pi | e => True
  | add a b | sub a b | mul a b => a.IsRegular margin ∧ b.IsRegular margin
  | neg a | exp a | sin a | cos a | arctan a | square a | named _ a => a.IsRegular margin
  | inverse a => a.IsRegular margin ∧ a.value ≠ 0 ∧ margin ≤ |a.value|
  | sqrt a => a.IsRegular margin ∧ 0 ≤ a.value
  | ln a => a.IsRegular margin ∧ 0 < a.value ∧ margin ≤ |a.value|
  | tan a => a.IsRegular margin ∧ Real.cos a.value ≠ 0 ∧ margin ≤ |Real.cos a.value|
  | arcsin a | arccos a => a.IsRegular margin ∧ -1 ≤ a.value ∧ a.value ≤ 1
  | power a n => n ≠ 0 →
      a.IsRegular margin ∧ (n < 0 → a.value ≠ 0 ∧ margin ≤ |a.value ^ n.natAbs|)

/-- The formula is defined and has the value `x`. -/
def Denotes (t : Term) (x : ℝ) : Prop := t.IsDefined ∧ t.value = x

variable {t : Term} {x y : ℝ}

theorem isRegular_zero : t.IsRegular 0 ↔ t.IsDefined := by
  induction t <;> simp_all [IsRegular, IsDefined]

theorem Denotes.unique (h : t.Denotes x) (h' : t.Denotes y) : x = y :=
  h.2.symm.trans h'.2

theorem denotes_rational (q : Rat) : (rational q).Denotes q := ⟨trivial, rfl⟩

theorem Denotes.neg (h : t.Denotes x) : t.neg.Denotes (-x) := by
  refine ⟨h.1, ?_⟩
  rw [value, h.2]

end Reckoner.Reals.Term
