import Reckoner.Elementary
import Reckoner.Error
import Reckoner.Reals.Graph
import Reckoner.Reals.Request
/-!
How a node of a graph is approximated. To be within `2 ^ -precision` of its number, a node asks its
operands for the precision that makes up for what the operation magnifies, and rounds the result
to so many bits that rounding takes little of the allowance. A number that no domain admits is found
here, when it is approximated.
-/
namespace Reckoner.Reals

/-- What a node asks on its way to an approximation. -/
abbrev Inquiry (n : Nat) := Request n BigFloat ArithmeticError

/-- The bits that round a number below `2 ^ magnitude` to within `2 ^ -(precision + 2)`. -/
def bitsFor (precision magnitude : Int) : Nat :=
  (max (precision + magnitude) 0).toNat + 2

/-- The precisions at which a number is tested for zero. One that stays too small to be told from zero
at the last of them counts as zero. -/
def zeroTests : List Nat := [16, 32, 64, 128, 256, 512, 1024, 2048, 4096]

/-- Asks for a node until it is known to be at least `2 ^ low` in size, and goes on with `low` and the
approximation that shows it, or with nothing for a node that counts as zero. -/
def lowerBound {n : Nat} (a : Fin n) (next : Option (Int × BigFloat) → Inquiry n) :
    List Nat → Inquiry n
  | [] => next none
  | p :: ps => .ask a p fun x =>
    if !x.isZero && 2 - (p : Int) ≤ x.magnitude then next (some (x.magnitude - 2, x))
    else lowerBound a next ps

/-- The double nearest to 1.4427, a little more than the binary logarithm of e. -/
def log2e : BigFloat := ⟨6497343182407415, -52⟩

/-- A bound on the magnitude of `e ^ (x + 1)`. -/
def expMagnitude (x : BigFloat) : Int :=
  max ((BigFloat.mul 53 (BigFloat.add 53 x (BigFloat.ofInt 1)) log2e).ceil + 1) 0

/-- Asks for an operand that must lie between −1 and 1, allows for its approximation lying a little
outside, and goes on with the nearest number inside. -/
def unitRange {n : Nat} (a : Fin n) (precision : Int) (next : BigFloat → Inquiry n) : Inquiry n :=
  let wanted := 2 * precision + 6
  .ask a wanted fun x =>
    let limit := (BigFloat.ofInt 1).addExact (BigFloat.twoPow (-wanted))
    if limit.lt x || x.lt limit.neg then .fail .outsideUnitRange
    else next (BigFloat.maximum (BigFloat.minimum x (BigFloat.ofInt 1)) (BigFloat.ofInt (-1)))

/-- The approximation of a rational number: an integer is exact. -/
def approximateRational (q : Rat) (precision : Int) : BigFloat :=
  if q.den = 1 then BigFloat.ofInt q.num
  else
    let magnitude : Int := bitLength q.num.natAbs - bitLength q.den + 1
    let bits := bitsFor precision magnitude + 2
    BigFloat.div bits ((BigFloat.ofInt q.num).round bits) ((BigFloat.ofInt q.den).round bits)

/-- The approximation of an operation within `2 ^ -precision`. -/
def approximateOp {n : Nat} (kernel : Kernel) (precision : Int) : Op (Fin n) → Inquiry n
  | .rational q => .done (approximateRational q precision)
  | .pi => .done (kernel.pi (bitsFor precision 2))
  | .e => .done (kernel.e (bitsFor precision 2))
  | .add a b =>
    .ask a (precision + 2) fun x => .ask b (precision + 2) fun y =>
      .done (BigFloat.add (bitsFor precision (max x.magnitude y.magnitude + 1)) x y)
  | .sub a b =>
    .ask a (precision + 2) fun x => .ask b (precision + 2) fun y =>
      .done (BigFloat.sub (bitsFor precision (max x.magnitude y.magnitude + 1)) x y)
  | .mul a b =>
    .ask a 0 fun x₀ => .ask b 0 fun y₀ =>
      .ask b (max (precision + (max x₀.magnitude 0 + 1) + 2) 0) fun y =>
        .ask a (max (precision + (max y₀.magnitude 0 + 2) + 2) 0) fun x =>
          .done (BigFloat.mul (bitsFor precision (x.magnitude + y.magnitude)) x y)
  | .neg a => .ask a precision fun x => .done x.neg
  | .inverse a =>
    lowerBound a (fun
      | none => .fail .divisionByZero
      | some (low, _) => .ask a (max (precision - 2 * low + 2) (1 - low)) fun y =>
        .done (BigFloat.div (bitsFor precision (1 - low)) (BigFloat.ofInt 1) y)) zeroTests
  | .sqrt a =>
    let wanted := 2 * precision + 4
    .ask a wanted fun x =>
      if x.lt (BigFloat.twoPow (-wanted)).neg then .fail .rootOfNegative
      else if x.mantissa ≤ 0 then .done ⟨0, 0⟩
      else .done (BigFloat.sqrt (bitsFor precision (x.magnitude / 2 + 1)) x)
  | .ln a =>
    lowerBound a (fun
      | none => .fail .logarithmOfNonPositive
      | some (low, x) =>
        if x.mantissa < 0 then .fail .logarithmOfNonPositive
        else .ask a (max (precision - low + 3) (1 - low)) fun x =>
          .done (kernel.ln (bitsFor precision (bitLength (x.magnitude.natAbs + 1))) x)) zeroTests
  | .exp a =>
    .ask a 0 fun x₀ =>
      let top := expMagnitude x₀
      .ask a (max (precision + top + 4) 0) fun x =>
        .done (kernel.exp (bitsFor precision (top + 2)) x)
  | .sin a => .ask a (precision + 2) fun x => .done (kernel.sin (bitsFor precision 1) x)
  | .cos a => .ask a (precision + 2) fun x => .done (kernel.cos (bitsFor precision 1) x)
  | .arcsin a => unitRange a precision fun x => .done (kernel.arcsin (bitsFor precision 1) x)
  | .arccos a => unitRange a precision fun x => .done (kernel.arccos (bitsFor precision 2) x)
  | .arctan a => .ask a (precision + 2) fun x => .done (kernel.arctan (bitsFor precision 1) x)

/-- The approximation of each node of a graph; a number beyond its nodes stands for zero. -/
def Graph.programs (kernel : Kernel) (g : Graph) : Programs BigFloat ArithmeticError :=
  fun n precision =>
    if h : n < g.ops.size then
      approximateOp kernel precision ((g.ops[n]).below (g.ordered n h))
    else .done ⟨0, 0⟩

end Reckoner.Reals
