import Reckoner.DigitCount
import Reckoner.Expression
import Reckoner.Grammar
/-!
Evaluating whole expressions, and the short text of a result.
-/
namespace Reckoner

open Reals

/-- What every evaluation of a calculator has in common: the size bound of exact values and the
functions that approximations are made with. -/
structure Arithmetic where
  limit : Int
  kernel : Kernel

namespace Arithmetic

/-- The evaluation mode for a unit of angles. -/
def mode (a : Arithmetic) (degrees : Bool) : Grammar.Mode := ⟨degrees, a.limit, a.kernel⟩

/-- Evaluates the tokens that count in a context. -/
def evaluateIn (a : Arithmetic) (context : Context) (e : Expression) : Recall Failure Dual :=
  Grammar.evaluate (a.mode context.degrees) context.span e

/-- Evaluates an expression, without the operators at its end that cannot end one unless all of it is
required. -/
def evaluate (a : Arithmetic) (degrees required : Bool) (e : Expression) : Recall Failure Dual :=
  a.evaluateIn ⟨degrees, if required then e.length else e.trailingStart⟩ e

/-- A result to a number of significant decimal digits. -/
def render (a : Arithmetic) (digits : Nat) (x : Dual) : Recall Failure String :=
  (x.real.render a.kernel digits).mapError .arithmetic

/-- A result to a number of digits as a setting gives it. -/
def renderTo (a : Arithmetic) (digits : Json) (x : Dual) : Recall Failure String := do
  let count ← .ofExcept ((DigitCount.of digits).mapError .digits)
  let bits ← .ofExcept (count.bits.mapError .digits)
  let approximation ← (x.real.approximate a.kernel bits).mapError .arithmetic
  .ofExcept ((count.render approximation).mapError .digits)

/-- A short text for a result: an integer of at most so many digits in full, else so many significant
digits. -/
def shortText (a : Arithmetic) (digits : Json) (x : Dual) : Recall Failure String := do
  match Exact.toInt? x.exact with
  | some n =>
    let text ← .ofExcept ((Text.integerText n).mapError .numeral)
    let count ← .ofExcept ((DigitCount.of digits).mapError .digits)
    if count.admits (text.length - if n < 0 then 1 else 0) then return text
    else a.renderTo digits x
  | none => a.renderTo digits x

def describeExact : Option Rat → Except Failure String
  | none => .ok "None"
  | some q => do
    let numerator ← (Text.integerText q.num).mapError .numeral
    let denominator ← (Text.integerText q.den).mapError .numeral
    return "Fraction(" ++ numerator ++ ", " ++ denominator ++ ")"

def describeReal (a : Arithmetic) (x : Dual) : Recall Failure String := do
  return "LazyReal(" ++ (← a.render 20 x) ++ ")"

def describe (a : Arithmetic) (x : Dual) : Recall Failure String := do
  let value ← a.describeReal x
  let exact ← .ofExcept (describeExact x.exact)
  return "EvalResult(value=" ++ value ++ ", rational=" ++ exact ++ ")"

end Arithmetic

end Reckoner
