import Reckoner.FixedPoint
/-!
Elementary functions of binary floating-point numbers, to a given number of significant bits. Each
is found in fixed point with spare bits, enough that the result is accurate relative to its own
size, and rounded once.
-/
namespace Reckoner

/-- The functions that the evaluation of real numbers is built on. A function is given the number of
significant bits that its result must have. -/
structure Kernel where
  pi : Nat → BigFloat
  e : Nat → BigFloat
  exp : Nat → BigFloat → BigFloat
  ln : Nat → BigFloat → BigFloat
  sin : Nat → BigFloat → BigFloat
  cos : Nat → BigFloat → BigFloat
  arcsin : Nat → BigFloat → BigFloat
  arccos : Nat → BigFloat → BigFloat
  arctan : Nat → BigFloat → BigFloat

namespace Elementary

/-- Bits found beyond those asked for. -/
def spare : Nat := 32

def pi (bits : Nat) : BigFloat :=
  FixedPoint.toBigFloat (bits + spare) bits (FixedPoint.pi (bits + spare))

def e (bits : Nat) : BigFloat :=
  FixedPoint.toBigFloat (bits + spare) bits (FixedPoint.e (bits + spare))

/-- The exponential. The argument is a multiple of ln 2, which gives the exponent, and a rest between
zero and ln 2, which gives the mantissa. -/
def exp (bits : Nat) (x : BigFloat) : BigFloat :=
  if x.isZero || x.magnitude < -(bits + spare : Int) then ⟨1, 0⟩
  else
    let p := bits + spare
    let wide := p + x.magnitude.toNat + 4
    let ln2 := FixedPoint.ln2 wide
    let scaled := FixedPoint.ofBigFloat wide x
    let k := scaled / ln2
    let rest := (scaled % ln2) >>> (wide - p)
    BigFloat.round bits ⟨FixedPoint.exp p rest, k - p⟩

/-- The natural logarithm of a positive number. The argument is a power of two, which gives a multiple
of ln 2, times a number near one, whose logarithm is twice an inverse hyperbolic tangent. -/
def ln (bits : Nat) (x : BigFloat) : BigFloat :=
  let n := x.mantissa.natAbs
  let length := bitLength n
  -- the factor near one lies between 0.7 and 1.4
  let low := 7 * (1 <<< length : Nat) > 10 * n
  let k : Int := x.exponent + length - (if low then 1 else 0)
  let near : BigFloat := ⟨n, x.exponent - k⟩
  let above := near.subExact (BigFloat.ofInt 1)
  let lost := if k = 0 then (-above.magnitude).toNat else 0
  let p := bits + spare + lost + bitLength k.natAbs
  if k = 0 && above.isZero then ⟨0, 0⟩
  else
    let ratio := BigFloat.div (p + 4) above (near.addExact (BigFloat.ofInt 1))
    let rest := 2 * FixedPoint.artanh p (FixedPoint.ofBigFloat p ratio)
    FixedPoint.toBigFloat p bits (if k = 0 then rest else k * FixedPoint.ln2 p + rest)

/-- Sine and cosine of `x` at scale `p`, at least `p` bits after the point being right. The argument is
a multiple of π/2 and a rest of at most π/4. -/
def quadrant (p : Nat) (x : BigFloat) : Int × Int :=
  let wide := p + x.magnitude.toNat + 4
  -- π at one scale is π/2 at the next
  let quarterTurn := FixedPoint.pi (wide + 1)
  let scaled := FixedPoint.ofBigFloat (wide + 2) x
  let k := (scaled + quarterTurn / 2) / quarterTurn
  let rest := (scaled - k * quarterTurn) >>> (wide + 2 - p)
  let s := FixedPoint.sin p rest
  let c := FixedPoint.cos p rest
  if k % 4 = 0 then (s, c)
  else if k % 4 = 1 then (c, -s)
  else if k % 4 = 2 then (-s, -c)
  else (-c, s)

/-- Repeats a fixed-point computation with more bits until `bits` and the spare ones are significant,
or the allowed number of trials is spent. -/
def significant (bits : Nat) (compute : Nat → Int) : Nat → Nat → BigFloat
  | 0, p => FixedPoint.toBigFloat p bits (compute p)
  | trials + 1, p =>
    let n := compute p
    if bits + spare / 2 < bitLength n.natAbs then FixedPoint.toBigFloat p bits n
    else significant bits compute trials (2 * p - bitLength n.natAbs)

/-- The scale at which a number of the size of `x` has the bits asked for. -/
def scaleFor (bits : Nat) (x : BigFloat) : Nat :=
  bits + spare + (-x.magnitude).toNat

def sin (bits : Nat) (x : BigFloat) : BigFloat :=
  if 2 * x.magnitude < -(bits + spare : Int) then x.round bits
  else if x.isZero then x
  else significant bits (fun p => (quadrant p x).1) 64 (scaleFor bits x)

def cos (bits : Nat) (x : BigFloat) : BigFloat :=
  if x.isZero || 2 * x.magnitude < -(bits + spare : Int) then ⟨1, 0⟩
  else significant bits (fun p => (quadrant p x).2) 64 (bits + spare)

/-- The arc tangent of a positive number. Above one it is π/2 less that of the reciprocal. -/
def arctanPositive (bits : Nat) (x : BigFloat) : BigFloat :=
  if 2 * x.magnitude < -(bits + spare : Int) then x.round bits
  else
    let p := scaleFor bits x
    if x.le (BigFloat.ofInt 1) then
      FixedPoint.toBigFloat p bits (FixedPoint.arctan p (FixedPoint.ofBigFloat p x))
    else
      let inverse := FixedPoint.ofBigFloat p (BigFloat.div (p + 4) (BigFloat.ofInt 1) x)
      FixedPoint.toBigFloat p bits (FixedPoint.pi p / 2 - FixedPoint.arctan p inverse)

def arctan (bits : Nat) (x : BigFloat) : BigFloat :=
  if x.isZero then x
  else if x.mantissa < 0 then (arctanPositive bits x.abs).neg
  else arctanPositive bits x

/-- The cosine of the arc sine of `x`: the other leg of a right triangle over one. -/
def otherLeg (bits : Nat) (x : BigFloat) : BigFloat :=
  BigFloat.sqrt bits ((BigFloat.ofInt 1).subExact (x.mulExact x))

def halfPi (bits : Nat) : BigFloat :=
  (pi bits).mulExact (BigFloat.twoPow (-1))

/-- The arc sine of a number between −1 and 1. -/
def arcsin (bits : Nat) (x : BigFloat) : BigFloat :=
  let leg := otherLeg (bits + spare) x
  if leg.isZero then if x.mantissa < 0 then (halfPi bits).neg else halfPi bits
  else arctan bits (BigFloat.div (bits + spare) x leg)

/-- The arc cosine of a number between −1 and 1. -/
def arccos (bits : Nat) (x : BigFloat) : BigFloat :=
  let wide := bits + spare
  let leg := otherLeg wide x
  if x.isZero then halfPi bits
  else if 0 < x.mantissa then arctan bits (BigFloat.div wide leg x)
  else BigFloat.sub bits (pi wide) (arctan wide (BigFloat.div wide leg x.abs))

/-- The functions of this module as a kernel. -/
def kernel : Kernel :=
  { pi, e, exp, ln, sin, cos, arcsin, arccos, arctan }

end Elementary

end Reckoner
