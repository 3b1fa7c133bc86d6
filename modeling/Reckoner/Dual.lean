import Reckoner.Exact.Functions
import Reckoner.Reals.Memory
/-!
Numbers known twice: as a formula for a real number, always, and as an exact value where there is one.
An operation looks for an exact result first and derives the formula from it; only where there is
none does it work on the formulas.
-/
namespace Reckoner

open Reals

/-- A real number, with its exact value if it is known. -/
structure Dual where
  real : Term
  exact : Option Rat
  deriving DecidableEq, Repr

namespace Dual

def ofRat (q : Rat) : Dual := ⟨.rational q, some q⟩

/-- The exact result, or the formula where there is none. -/
def orReal (exact : Option Rat) (real : Term) : Dual :=
  match exact with
  | some q => ofRat q
  | none => ⟨real, none⟩

/-- The number under a name of its own, unless it is kept already. -/
def keptAs (name : Nat) (x : Dual) : Dual :=
  if x.real.identity?.isSome then x else { x with real := .named (.name name) x.real }

def radiansPerDegree : Term := .named .radiansPerDegree (Term.div .pi (.rational 180))

def degreesPerRadian : Term := .named .degreesPerRadian (Term.div (.rational 180) .pi)

def lnTen : Term := .named .lnTen (.ln (.rational 10))

def hundredth : Term := .named .hundredth (.inverse (.rational 100))

def toRadians (degrees : Bool) (t : Term) : Term :=
  if degrees then .mul t radiansPerDegree else t

/-- An angle in radians, given in the unit of the mode. -/
def fromRadians (degrees : Bool) (t : Term) : Term :=
  if degrees then .mul t degreesPerRadian else t

/-- A named function of a formula. Angles are rescaled in degree mode. -/
def applyReal (degrees : Bool) (f : FunctionName) (t : Term) : Term :=
  match f with
  | .sin => .sin (toRadians degrees t)
  | .cos => .cos (toRadians degrees t)
  | .tan => .tan (toRadians degrees t)
  | .arcsin => fromRadians degrees (.arcsin t)
  | .arccos => fromRadians degrees (.arccos t)
  | .arctan => fromRadians degrees (.arctan t)
  | .ln => .ln t
  | .log => Term.div (.ln t) lnTen
  | .exp => .exp t

def apply (degrees : Bool) (f : FunctionName) (x : Dual) : Except ArithmeticError Dual := do
  return orReal (← Exact.apply degrees f x.exact) (applyReal degrees f x.real)

def sqrt (x : Dual) : Except ArithmeticError Dual := do
  return orReal (← Exact.sqrt x.exact) (.sqrt x.real)

def neg (x : Dual) : Dual := ⟨.neg x.real, Exact.neg x.exact⟩

def add (limit : Int) (x y : Dual) : Dual :=
  orReal (Exact.add limit x.exact y.exact) (.add x.real y.real)

def sub (limit : Int) (x y : Dual) : Dual :=
  orReal (Exact.sub limit x.exact y.exact) (.sub x.real y.real)

def mul (limit : Int) (x y : Dual) : Dual :=
  orReal (Exact.mul limit x.exact y.exact) (.mul x.real y.real)

def div (limit : Int) (x y : Dual) : Except ArithmeticError Dual := do
  return orReal (← Exact.div limit x.exact y.exact) (Term.div x.real y.real)

def square (limit : Int) (x : Dual) : Dual :=
  orReal (Exact.mul limit x.exact x.exact) (.square x.real)

/-- One hundredth of the number. -/
def percent (limit : Int) (x : Dual) : Dual :=
  orReal (Exact.mul limit x.exact (some (1 / 100))) (.mul x.real hundredth)

/-- The precision to which a number without an exact value must be an integer to have a factorial. -/
def integerTest : Int := 100

/-- The exact value, or the integer that a number without one is close to. -/
def wholeValue (kernel : Kernel) (x : Dual) : Recall ArithmeticError Rat := do
  match x.exact with
  | some q => return q
  | none =>
    match ← x.real.ask fun g node => Reals.integer? kernel g node integerTest with
    | some n => return n
    | none => throw .factorialOfNonInteger

/-- The factorial. A number without an exact value counts as the integer that it is close to. -/
def factorial (kernel : Kernel) (x : Dual) : Recall ArithmeticError Dual := do
  let exact ← x.wholeValue kernel
  return orReal (← .ofExcept (Exact.factorial (some exact))) x.real

/-- The power. Without an exact value it is a repeated product where the exponent is an integer, which
must not nest beyond `depth`, and else the exponential of a product with the logarithm. -/
def power (limit : Int) (depth : Nat) (x y : Dual) : Except Failure Dual := do
  match ← (Exact.pow limit x.exact y.exact).mapError .arithmetic with
  | some q => return ofRat q
  | none =>
    match Exact.toInt? y.exact with
    | some n =>
      if depth < Graph.powerDepth n.natAbs then throw .nesting
      else return ⟨x.real.intPower n, none⟩
    | none => return ⟨.exp (.mul (.ln x.real) y.real), none⟩

end Dual

end Reckoner
