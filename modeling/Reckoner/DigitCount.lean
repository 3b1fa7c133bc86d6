import Reckoner.Decimal.Expansion
import Reckoner.Error
import Reckoner.Json.Basic
/-!
How many digits a text is to have. A setting may hold any number for it: zero and negative counts have
texts of their own, and counts in fractional form serve to compare lengths only.
-/
namespace Reckoner

/-- A number of digits. -/
inductive DigitCount where
  | whole (n : Int)
  | fractional (x : Binary64)
  deriving DecidableEq, Repr

namespace DigitCount

/-- The number of digits that a value holds; truth values count as 1 and 0. -/
def of : Json → Except DigitError DigitCount
  | .integer n => .ok (.whole n)
  | .bool b => .ok (.whole (if b then 1 else 0))
  | .real x => .ok (.fractional x)
  | _ => .error .notANumber

/-- Whether a text of some length has no more digits than that. -/
def admits (length : Nat) : DigitCount → Bool
  | whole n => length ≤ n
  | fractional (.finite negative mantissa exponent) =>
    if negative then length = 0
    else (BigFloat.ofInt length).le ⟨mantissa, exponent⟩
  | fractional (.infinite negative) => !negative
  | fractional .nan => false

/-- The significant bits that go with a number of digits: 3.33 for each, cut to an integer, and eight
more. Beyond bounds that no text comes near, numbers are refused. -/
def bits (d : DigitCount) : Except DigitError Int :=
  let bounded (n : Int) : Except DigitError Int :=
    if n < -(powTwo 1024 : Int) || (powTwo 66 : Int) < n then .error .unbounded else .ok (n + 8)
  match d with
  | whole n => bounded ((n * 333).tdiv 100)
  | fractional (.finite negative mantissa exponent) =>
    let size := (BigFloat.toRat ⟨mantissa, exponent⟩ * 333 / 100).floor
    bounded (if negative then -size else size)
  | fractional (.infinite _) => .error .unbounded
  | fractional .nan => .error .undefined

def render (d : DigitCount) (x : BigFloat) : Except DigitError String :=
  match d with
  | whole n =>
    if 0 < n then .ok (Decimal.render n.toNat x)
    else if n = 0 then .ok (Decimal.magnitudeOnly x)
    else
      match Decimal.abridged n.natAbs x with
      | some s => .ok s
      | none => .error .exhausted
  | fractional (.finite _ 0 _) => .ok (Decimal.magnitudeOnly x)
  | fractional _ => if x.isZero then .ok (Decimal.render 1 x) else .error .notWhole

end DigitCount

end Reckoner
