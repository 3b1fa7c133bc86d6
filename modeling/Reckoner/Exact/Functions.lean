import Reckoner.Exact.Arithmetic
import Reckoner.Key
/-!
Arguments at which a function has a rational value, in radians and in degrees. A function is unknown
at every other argument, and an error where it is not defined.
-/
namespace Reckoner.Exact

/-- The square root of a square. -/
def sqrt : Option Rat → Except ArithmeticError (Option Rat)
  | none => .ok none
  | some q =>
    if q < 0 then .error .rootOfNegative
    else if isSquare q.num && isSquare q.den then
      .ok (some (mkRat q.num.toNat.sqrt q.den.sqrt))
    else .ok none

/-- How often ten divides a positive number, and what is left then. -/
def stripTens (n : Nat) : Nat × Nat :=
  if n = 0 then (0, 0)
  else if n % 10 = 0 then
    let (k, rest) := stripTens (n / 10)
    (k + 1, rest)
  else (0, n)
termination_by n

/-- The exponent of a power of ten. -/
def tenExponent? (n : Nat) : Option Nat :=
  let (k, rest) := stripTens n
  if rest = 1 then some k else none

/-- The natural logarithm of one. -/
def ln : Option Rat → Except ArithmeticError (Option Rat)
  | none => .ok none
  | some q =>
    if q ≤ 0 then .error .logarithmOfNonPositive
    else if q = 1 then .ok (some 0)
    else .ok none

/-- The decimal logarithm of an integer power of ten. -/
def log : Option Rat → Except ArithmeticError (Option Rat)
  | none => .ok none
  | some q =>
    if q ≤ 0 then .error .logarithmOfNonPositive
    else if q.den = 1 then .ok ((tenExponent? q.num.toNat).map fun k => ((k : Int) : Rat))
    else if q.num = 1 then .ok ((tenExponent? q.den).map fun k => ((-(k : Int) : Int) : Rat))
    else .ok none

/-- The value `y` at the argument `x` alone. -/
def only (x y : Rat) (a : Option Rat) : Option Rat :=
  if a = some x then some y else none

/-- The exponential of zero. -/
def exp (a : Option Rat) : Option Rat := only 0 1 a

/-- The sine of zero. -/
def sin (a : Option Rat) : Option Rat := only 0 0 a

/-- The cosine of zero. -/
def cos (a : Option Rat) : Option Rat := only 0 1 a

/-- The tangent of zero. -/
def tan (a : Option Rat) : Option Rat := sin a

/-- Refuses a known value outside −1 to 1. -/
def checkUnitRange : Option Rat → Except ArithmeticError Unit
  | some q => if q < -1 || 1 < q then .error .outsideUnitRange else .ok ()
  | none => .ok ()

/-- The arc sine of zero. -/
def arcsin (a : Option Rat) : Except ArithmeticError (Option Rat) := do
  checkUnitRange a
  return sin a

/-- The arc cosine of one. -/
def arccos (a : Option Rat) : Except ArithmeticError (Option Rat) := do
  checkUnitRange a
  return only 1 0 a

/-- The arc tangent of zero. -/
def arctan (a : Option Rat) : Option Rat := sin a

/-- The sine of `k` times 30 degrees, for `k` below 12. -/
def sineOfTwelfth : Nat → Option Rat
  | 0 => some 0
  | 1 => some (1 / 2)
  | 3 => some 1
  | 5 => some (1 / 2)
  | 6 => some 0
  | 7 => some (-1 / 2)
  | 9 => some (-1)
  | 11 => some (-1 / 2)
  | _ => none

/-- The sine of an angle in degrees: of the multiples of 30, those with a rational sine. -/
def sinDegrees : Option Rat → Option Rat
  | none => none
  | some q =>
    let steps := q / 30
    if steps.den = 1 then sineOfTwelfth (steps.num % 12).toNat else none

/-- The cosine of an angle in degrees, as the sine of its sum with a right angle. -/
def cosDegrees (a : Option Rat) : Option Rat := sinDegrees (a.map (· + 90))

/-- The tangent of an angle in degrees: of the multiples of 45, all but the odd multiples of 90. -/
def tanDegrees : Option Rat → Except ArithmeticError (Option Rat)
  | none => .ok none
  | some q =>
    let steps := q / 45
    if steps.den ≠ 1 then .ok none
    else
      match (steps.num % 4).toNat with
      | 0 => .ok (some 0)
      | 1 => .ok (some 1)
      | 2 => .error .tangentUndefined
      | _ => .ok (some (-1))

/-- The arc sine in degrees of 0, ±1/2 and ±1. -/
def arcsinDegrees (a : Option Rat) : Except ArithmeticError (Option Rat) := do
  checkUnitRange a
  return a.bind fun q =>
    if q = -1 then some (-90)
    else if q = -1 / 2 then some (-30)
    else if q = 0 then some 0
    else if q = 1 / 2 then some 30
    else if q = 1 then some 90
    else none

/-- The arc cosine in degrees, as a right angle less the arc sine. -/
def arccosDegrees (a : Option Rat) : Except ArithmeticError (Option Rat) := do
  return (← arcsinDegrees a).map (90 - ·)

/-- The arc tangent in degrees of 0 and ±1. -/
def arctanDegrees (a : Option Rat) : Option Rat :=
  a.bind fun q =>
    if q = -1 then some (-45)
    else if q = 0 then some 0
    else if q = 1 then some 45
    else none

/-- A named function at a known argument, with angles in degrees or radians. -/
def apply (degrees : Bool) (f : FunctionName) (a : Option Rat) :
    Except ArithmeticError (Option Rat) :=
  match f with
  | .sin => .ok (if degrees then sinDegrees a else sin a)
  | .cos => .ok (if degrees then cosDegrees a else cos a)
  | .tan => if degrees then tanDegrees a else .ok (tan a)
  | .arcsin => if degrees then arcsinDegrees a else arcsin a
  | .arccos => if degrees then arccosDegrees a else arccos a
  | .arctan => .ok (if degrees then arctanDegrees a else arctan a)
  | .ln => ln a
  | .log => log a
  | .exp => .ok (exp a)

end Reckoner.Exact
