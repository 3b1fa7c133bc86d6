import Mathlib.Analysis.SpecialFunctions.Trigonometric.Arctan
import Mathlib.Analysis.Real.Sqrt
import Reckoner.Error
import Reckoner.Proofs.BinaryValue
import Reckoner.Reals.Graph
/-!
The real number of a node. A node has it if its operation and all those that it depends on are defined
at their operands; it is regular with a margin if these also stay so far away from the poles.
-/
namespace Reckoner.Reals

namespace Op

variable {ι : Type}

/-- The value of an operation, given those of its operands. It means something only where the
operation is defined. -/
noncomputable def value (r : ι → ℝ) : Op ι → ℝ
  | rational q => q
  | pi => Real.pi
  | e => Real.exp 1
  | add a b => r a + r b
  | sub a b => r a - r b
  | mul a b => r a * r b
  | neg a => -r a
  | inverse a => (r a)⁻¹
  | sqrt a => √(r a)
  | ln a => Real.log (r a)
  | exp a => Real.exp (r a)
  | sin a => Real.sin (r a)
  | cos a => Real.cos (r a)
  | arcsin a => Real.arcsin (r a)
  | arccos a => Real.arccos (r a)
  | arctan a => Real.arctan (r a)

/-- Whether the operation is defined at its operands. -/
def IsDefined (r : ι → ℝ) : Op ι → Prop
  | inverse a => r a ≠ 0
  | sqrt a => 0 ≤ r a
  | ln a => 0 < r a
  | arcsin a | arccos a => -1 ≤ r a ∧ r a ≤ 1
  | _ => True

/-- Whether the operation is defined at its operands, which stay away from its poles by a margin. -/
def IsRegular (margin : ℝ) (r : ι → ℝ) (op : Op ι) : Prop :=
  op.IsDefined r ∧
    match op with
    | inverse a | ln a => margin ≤ |r a|
    | _ => True

/-- Whether an error is about the operation's operand. One within `zeroMargin` is as good as zero. -/
def Faults (r : ι → ℝ) (e : ArithmeticError) : Op ι → Prop
  | inverse a => e = .divisionByZero ∧ |r a| < zeroMargin
  | ln a => e = .logarithmOfNonPositive ∧ r a < zeroMargin
  | sqrt a => e = .rootOfNegative ∧ r a < 0
  | arcsin a | arccos a => e = .outsideUnitRange ∧ 1 < |r a|
  | _ => False

theorem value_below {n : ℕ} (r : ℕ → ℝ) (op : Op ℕ) (h : ∀ c ∈ op.operands, c < n) :
    (op.below h).value (fun i : Fin n => r i) = op.value r := by
  cases op <;> rfl

theorem isDefined_below {n : ℕ} (r : ℕ → ℝ) (op : Op ℕ) (h : ∀ c ∈ op.operands, c < n) :
    (op.below h).IsDefined (fun i : Fin n => r i) ↔ op.IsDefined r := by
  cases op <;> rfl

theorem isRegular_below {n : ℕ} (margin : ℝ) (r : ℕ → ℝ) (op : Op ℕ)
    (h : ∀ c ∈ op.operands, c < n) :
    (op.below h).IsRegular margin (fun i : Fin n => r i) ↔ op.IsRegular margin r := by
  cases op <;> rfl

theorem faults_below {n : ℕ} (r : ℕ → ℝ) (op : Op ℕ) (h : ∀ c ∈ op.operands, c < n)
    (e : ArithmeticError) :
    (op.below h).Faults (fun i : Fin n => r i) e ↔ op.Faults r e := by
  cases op <;> rfl

theorem forall_operands_below {n : ℕ} {p : ℕ → Prop} (op : Op ℕ)
    (h : ∀ c ∈ op.operands, c < n) :
    (∀ i ∈ (op.below h).operands, p i) ↔ ∀ i ∈ op.operands, p i := by
  cases op <;> simp [below, operands]

/-- Only the values of the operands matter. -/
theorem value_congr {r r' : ι → ℝ} {op : Op ι} (h : ∀ i ∈ op.operands, r i = r' i) :
    op.value r = op.value r' := by
  cases op <;> simp_all [value, operands]

theorem isRegular_congr {margin : ℝ} {r r' : ι → ℝ} {op : Op ι}
    (h : ∀ i ∈ op.operands, r i = r' i) : op.IsRegular margin r ↔ op.IsRegular margin r' := by
  cases op <;> simp_all [IsRegular, IsDefined, operands]

theorem isRegular_zero {r : ι → ℝ} {op : Op ι} : op.IsRegular 0 r ↔ op.IsDefined r := by
  cases op <;> simp [IsRegular]

end Op

namespace Graph

/-- The value of a node; a number beyond the nodes stands for zero. -/
noncomputable def value (g : Graph) (n : ℕ) : ℝ :=
  if h : n < g.ops.size then ((g.ops[n]).below (g.ordered n h)).value fun i : Fin n => value g i
  else 0
termination_by n
decreasing_by exact i.isLt

/-- Whether a node has a mathematical value: its operation and everything below it are defined. -/
def IsDefined (g : Graph) (n : ℕ) : Prop :=
  ∀ h : n < g.ops.size,
    ((g.ops[n]).below (g.ordered n h)).IsDefined (fun i : Fin n => g.value i) ∧
      ∀ i : Fin n, i ∈ ((g.ops[n]).below (g.ordered n h)).operands → IsDefined g i
termination_by n
decreasing_by exact i.isLt

/-- Whether a node is defined, and no operand at or below it is nearer to a pole than a margin. -/
def IsRegular (g : Graph) (margin : ℝ) (n : ℕ) : Prop :=
  ∀ h : n < g.ops.size,
    ((g.ops[n]).below (g.ordered n h)).IsRegular margin (fun i : Fin n => g.value i) ∧
      ∀ i : Fin n, i ∈ ((g.ops[n]).below (g.ordered n h)).operands → IsRegular g margin i
termination_by n
decreasing_by exact i.isLt

variable {g : Graph} {margin : ℝ} {n : ℕ}

theorem value_of_lt (h : n < g.ops.size) : g.value n = (g.ops[n]).value g.value := by
  rw [value, dif_pos h, Op.value_below]

theorem isDefined_iff (h : n < g.ops.size) :
    g.IsDefined n ↔ (g.ops[n]).IsDefined g.value ∧ ∀ i ∈ (g.ops[n]).operands, g.IsDefined i := by
  have hbelow := Op.forall_operands_below (p := g.IsDefined) (g.ops[n]) (g.ordered n h)
  rw [IsDefined, forall_prop_of_true h, Op.isDefined_below, hbelow]

theorem isRegular_iff (h : n < g.ops.size) :
    g.IsRegular margin n ↔
      (g.ops[n]).IsRegular margin g.value ∧ ∀ i ∈ (g.ops[n]).operands, g.IsRegular margin i := by
  have hbelow := Op.forall_operands_below (p := g.IsRegular margin) (g.ops[n]) (g.ordered n h)
  rw [IsRegular, forall_prop_of_true h, Op.isRegular_below, hbelow]

/-- A node that is regular with some margin is defined. -/
theorem IsRegular.isDefined (hregular : g.IsRegular margin n) : g.IsDefined n := by
  induction n using Nat.strong_induction_on with
  | _ n ih =>
    by_cases h : n < g.ops.size
    · obtain ⟨hop, hoperands⟩ := (isRegular_iff h).1 hregular
      exact (isDefined_iff h).2 ⟨hop.1, fun i hi => ih i (g.ordered n h i hi) (hoperands i hi)⟩
    · rw [IsDefined]
      exact fun h' => absurd h' h

theorem isRegular_zero : g.IsRegular 0 n ↔ g.IsDefined n := by
  induction n using Nat.strong_induction_on with
  | _ n ih =>
    by_cases h : n < g.ops.size
    · rw [isRegular_iff h, isDefined_iff h, Op.isRegular_zero]
      exact and_congr_right' (forall₂_congr fun i hi => ih i (g.ordered n h i hi))
    · rw [IsRegular, IsDefined]
      exact iff_of_true (fun h' => absurd h' h) fun h' => absurd h' h

end Graph

end Reckoner.Reals
