import Reckoner.BigFloat
import Reckoner.Error
/-!
Exact arithmetic with a size bound. An exact value may be unknown, and every operation on an unknown
value is unknown; so is a sum, product, quotient or power that has grown beyond the bound.
-/
namespace Reckoner.Exact

/-- The bits of numerator and denominator together. -/
def size (q : Rat) : Nat :=
  bitLength q.num.natAbs + bitLength q.den

/-- Forgets a value of more than `limit` bits. -/
def bounded (limit : Int) (q : Rat) : Option Rat :=
  if limit < size q then none else some q

def add (limit : Int) : Option Rat → Option Rat → Option Rat
  | some a, some b => bounded limit (a + b)
  | _, _ => none

def sub (limit : Int) : Option Rat → Option Rat → Option Rat
  | some a, some b => bounded limit (a - b)
  | _, _ => none

def mul (limit : Int) : Option Rat → Option Rat → Option Rat
  | some a, some b => bounded limit (a * b)
  | _, _ => none

def div (limit : Int) : Option Rat → Option Rat → Except ArithmeticError (Option Rat)
  | some a, some b => if b = 0 then .error .divisionByZero else .ok (bounded limit (a / b))
  | _, _ => .ok none

/-- The opposite. It is as large as its operand. -/
def neg (a : Option Rat) : Option Rat := a.map (-·)

/-- The integer that a value is, if it is one. -/
def toInt? : Option Rat → Option Int
  | some q => if q.den = 1 then some q.num else none
  | none => none

def intPower (q : Rat) (n : Int) : Rat :=
  if 0 ≤ n then q ^ n.toNat else (q ^ n.natAbs)⁻¹

/-- A power with an integer exponent. Powers of 0, 1 and −1 and zeroth powers are found for every
exponent; others are estimated first, and not computed where the estimate exceeds the bound. -/
def pow (limit : Int) (base exponent : Option Rat) : Except ArithmeticError (Option Rat) :=
  match base, toInt? exponent with
  | some q, some n =>
    if q = 0 && n < 0 then .error .divisionByZero
    else if n = 0 || q = 1 then .ok (some 1)
    else if q = 0 then .ok (some 0)
    else if q = -1 then .ok (some (if n % 2 = 0 then 1 else -1))
    else if limit < n.natAbs * max (bitLength q.num.natAbs) (bitLength q.den) then .ok none
    else .ok (bounded limit (intPower q n))
  | _, _ => .ok none

/-- The largest number whose factorial is computed. -/
def factorialLimit : Nat := 5000

/-- The product of the numbers from one to `n`. -/
def natFactorial : Nat → Nat
  | 0 => 1
  | n + 1 => (n + 1) * natFactorial n

/-- The factorial of a known value; it may exceed the bound. -/
def factorial : Option Rat → Except ArithmeticError (Option Rat)
  | none => .ok none
  | some q =>
    match toInt? (some q) with
    | none => .error .factorialOfNonInteger
    | some n =>
      if n < 0 then .error .factorialOfNegative
      else if (factorialLimit : Int) < n then .error .factorialTooLarge
      else .ok (some ((natFactorial n.toNat : Nat) : Rat))

/-- Whether an integer is the square of one. -/
def isSquare (n : Int) : Bool :=
  0 ≤ n && n.toNat.sqrt * n.toNat.sqrt = n.toNat

end Reckoner.Exact
