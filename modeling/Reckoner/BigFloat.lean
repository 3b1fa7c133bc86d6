import Reckoner.Power
/-!
Binary floating-point numbers of any precision: an integer mantissa times a power of two. `round`
keeps a given number of significant bits, to nearest with ties to even; the operations that take a
number of bits round the exact result once.
-/
namespace Reckoner

/-- The number of binary digits, zero for zero. -/
def bitLength (n : Nat) : Nat :=
  if n = 0 then 0 else n.log2 + 1

/-- `n` divided by `2 ^ s`, to nearest, ties to even. -/
def shiftRoundEven (n s : Nat) : Nat :=
  let q := n >>> s
  let r := n - q <<< s
  let unit := 1 <<< s
  if unit < 2 * r || (2 * r = unit && q % 2 = 1) then q + 1 else q

/-- The number `mantissa * 2 ^ exponent`. -/
structure BigFloat where
  mantissa : Int
  exponent : Int
  deriving Repr

namespace BigFloat

def toRat (x : BigFloat) : Rat :=
  if 0 ≤ x.exponent then ((x.mantissa * powTwo x.exponent.toNat : Int) : Rat)
  else mkRat x.mantissa (powTwo x.exponent.natAbs)

def ofInt (n : Int) : BigFloat := ⟨n, 0⟩

def twoPow (k : Int) : BigFloat := ⟨1, k⟩

def isZero (x : BigFloat) : Bool := x.mantissa = 0

/-- The least `m` with `|x| < 2 ^ m`, and zero for zero. -/
def magnitude (x : BigFloat) : Int :=
  if x.isZero then 0 else bitLength x.mantissa.natAbs + x.exponent

def round (bits : Nat) (x : BigFloat) : BigFloat :=
  let length := bitLength x.mantissa.natAbs
  if length ≤ bits then x
  else
    let kept := shiftRoundEven x.mantissa.natAbs (length - bits)
    ⟨x.mantissa.sign * kept, x.exponent + ((length - bits : Nat) : Int)⟩

def neg (x : BigFloat) : BigFloat := ⟨-x.mantissa, x.exponent⟩

def abs (x : BigFloat) : BigFloat := ⟨x.mantissa.natAbs, x.exponent⟩

/-- The mantissa over a lower or equal exponent. -/
def mantissaAt (x : BigFloat) (exponent : Int) : Int :=
  x.mantissa * (1 <<< (x.exponent - exponent).toNat : Nat)

/-- A non-negative number times `2 ^ scale`, rounded down. -/
def mantissaFloor (x : BigFloat) (scale : Nat) : Nat :=
  let shift := x.exponent + scale
  if 0 ≤ shift then x.mantissa.toNat <<< shift.toNat else x.mantissa.toNat >>> shift.natAbs

def addExact (x y : BigFloat) : BigFloat :=
  if x.isZero then y
  else if y.isZero then x
  else
    let exponent := min x.exponent y.exponent
    ⟨x.mantissaAt exponent + y.mantissaAt exponent, exponent⟩

def subExact (x y : BigFloat) : BigFloat :=
  x.addExact y.neg

def mulExact (x y : BigFloat) : BigFloat :=
  ⟨x.mantissa * y.mantissa, x.exponent + y.exponent⟩

/-- A stand-in for `y` in a sum with a much larger `x` that is to be rounded to `bits`: where `y` lies
beyond every bit that rounding looks at, only its sign matters. -/
def negligible (bits : Nat) (x y : BigFloat) : BigFloat :=
  let last := min x.exponent (x.magnitude - bits) - 4
  if !x.isZero && !y.isZero && y.magnitude < last then ⟨y.mantissa.sign, last⟩ else y

def add (bits : Nat) (x y : BigFloat) : BigFloat :=
  ((negligible bits y x).addExact (negligible bits x y)).round bits

def sub (bits : Nat) (x y : BigFloat) : BigFloat :=
  add bits x y.neg

def mul (bits : Nat) (x y : BigFloat) : BigFloat :=
  (x.mulExact y).round bits

/-- The quotient to `bits` bits; zero where the divisor is zero. Enough quotient bits are found for
rounding, and a last bit records whether a remainder is left. -/
def div (bits : Nat) (x y : BigFloat) : BigFloat :=
  if x.isZero then ⟨0, 0⟩
  else
    let n := x.mantissa.natAbs
    let d := y.mantissa.natAbs
    let shift := bits + 2 + bitLength d - bitLength n
    let q := (n <<< shift) / d
    let sticky := if (n <<< shift) % d = 0 then 0 else 1
    round bits
      ⟨x.mantissa.sign * y.mantissa.sign * ((2 * q + sticky : Nat) : Int),
        x.exponent - y.exponent - shift - 1⟩

/-- The square root to `bits` bits; zero for numbers below zero. The root of a square is found as it
is; for others enough bits are found for rounding, and a last bit records that more follow. -/
def sqrt (bits : Nat) (x : BigFloat) : BigFloat :=
  if x.mantissa ≤ 0 then ⟨0, 0⟩
  else
    -- an even exponent can be halved
    let odd := x.exponent % 2
    let n := x.mantissa.natAbs <<< odd.toNat
    let half := (x.exponent - odd) / 2
    let root := n.sqrt
    if root * root = n then round bits ⟨root, half⟩
    else
      let shift := bits + 2 - bitLength n / 2
      let root := (n <<< (2 * shift)).sqrt
      let sticky := if root * root = n <<< (2 * shift) then 0 else 1
      round bits ⟨((2 * root + sticky : Nat) : Int), half - shift - 1⟩

/-- Whether `x < y`. Signs and magnitudes are compared before any digits. -/
def lt (x y : BigFloat) : Bool :=
  if x.mantissa.sign ≠ y.mantissa.sign then x.mantissa.sign < y.mantissa.sign
  else if x.magnitude ≠ y.magnitude then
    if 0 < x.mantissa then x.magnitude < y.magnitude else y.magnitude < x.magnitude
  else
    let exponent := min x.exponent y.exponent
    x.mantissaAt exponent < y.mantissaAt exponent

def le (x y : BigFloat) : Bool := !lt y x

/-- The lesser of two numbers. -/
def minimum (x y : BigFloat) : BigFloat := if lt y x then y else x

def maximum (x y : BigFloat) : BigFloat := if lt x y then y else x

/-- The nearest integer, ties to even. -/
def nearestInt (x : BigFloat) : Int :=
  if 0 ≤ x.exponent then x.mantissaAt 0
  else if x.magnitude < 0 then 0
  else x.mantissa.sign * shiftRoundEven x.mantissa.natAbs x.exponent.natAbs

/-- The least integer that is not below the number. -/
def ceil (x : BigFloat) : Int :=
  if 0 ≤ x.exponent then x.mantissaAt 0 else -((-x.mantissa) >>> x.exponent.natAbs)

end BigFloat

end Reckoner
