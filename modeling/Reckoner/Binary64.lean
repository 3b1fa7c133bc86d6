import Reckoner.BigFloat
import Reckoner.Decimal
/-!
The double-precision format: 53 significant bits, exponents from −1074 up, infinities beyond.
`ofFraction` rounds once to nearest with ties to even, and `shortest` finds the shortest decimal that
rounds back.
-/
namespace Reckoner

/-- A double: a sign and a mantissa below `2 ^ 53` over an exponent of at least −1074, or none of these. -/
inductive Binary64 where
  | finite (negative : Bool) (mantissa : Nat) (exponent : Int)
  | infinite (negative : Bool)
  | nan
  deriving DecidableEq, Repr

namespace Binary64

def ofFraction (negative : Bool) (n d : Nat) : Binary64 :=
  if n = 0 then finite negative 0 (-1074)
  else
    -- the quotient at this exponent has 53 or 54 bits, or the exponent is the least one
    let trial := max ((bitLength n : Int) - bitLength d - 53) (-1074)
    let at_ (exponent : Int) : Nat :=
      if 0 ≤ exponent then Decimal.divRoundEven n (d <<< exponent.toNat)
      else Decimal.divRoundEven (n <<< exponent.natAbs) d
    let exponent := if at_ trial < powTwo 53 then trial else trial + 1
    let mantissa := at_ exponent
    let (mantissa, exponent) :=
      if mantissa = powTwo 53 then (powTwo 52, exponent + 1) else (mantissa, exponent)
    if 971 < exponent then infinite negative else finite negative mantissa exponent

/-- The double nearest to a number that is first rounded to 53 significant bits. -/
def ofBigFloat (x : BigFloat) : Binary64 :=
  let x := x.round 53
  let n := x.mantissa.natAbs
  let negative := decide (x.mantissa < 0)
  if x.magnitude < -1200 then finite negative 0 (-1074)
  else if 1200 < x.magnitude then infinite negative
  else if 0 ≤ x.exponent then ofFraction negative (n <<< x.exponent.toNat) 1
  else ofFraction negative n (1 <<< x.exponent.natAbs)

/-- The double in the binary interchange format, as a natural number. -/
def bits : Binary64 → Nat
  | finite negative mantissa exponent =>
    let sign := if negative then powTwo 63 else 0
    if mantissa = 0 then sign
    else
      -- a normal number has its leading bit at place 52
      let shift := min (53 - bitLength mantissa) (exponent + 1074).toNat
      let mantissa := mantissa <<< shift
      let exponent := exponent - shift
      if mantissa < powTwo 52 then sign + mantissa
      else sign + (exponent + 1075).toNat * powTwo 52 + (mantissa - powTwo 52)
  | infinite negative => (if negative then powTwo 63 else 0) + 0x7ff * powTwo 52
  | nan => 0x7ff8 * powTwo 48

/-- Whether `digits * 10 ^ k` rounds to the double of a mantissa and an exponent. -/
def readsBack (mantissa : Nat) (exponent : Int) (digits : Nat) (k : Int) : Bool :=
  let (n, d) := Decimal.scale digits 1 k
  (ofFraction false n d).bits = (finite false mantissa exponent).bits

/-- The nearest decimal of at most `count` digits that reads back, trying ever longer ones. -/
def shortestFrom (mantissa : Nat) (exponent : Int) (n d : Nat) : Nat → Nat → Decimal.Rounded
  | 0, count => Decimal.significant count n d
  | trials + 1, count =>
    let first := Decimal.exponent n d
    let (sn, sd) := Decimal.scale n d (count - 1 - first)
    let low := sn / sd
    let k := first + 1 - count
    let lowFits := readsBack mantissa exponent low k
    let highFits := readsBack mantissa exponent (low + 1) k
    let chosen : Option Nat :=
      if lowFits && highFits then some (Decimal.divRoundEven sn sd)
      else if lowFits then some low
      else if highFits then some (low + 1)
      else none
    match chosen with
    | some digits =>
      if digits = powTen count then ⟨powTen (count - 1), count, first + 1⟩ else ⟨digits, count, first⟩
    | none => shortestFrom mantissa exponent n d trials (count + 1)

/-- The shortest decimal that rounds to a positive finite double. -/
def shortest (mantissa : Nat) (exponent : Int) : Decimal.Rounded :=
  let (n, d) :=
    if 0 ≤ exponent then (mantissa <<< exponent.toNat, 1) else (mantissa, 1 <<< exponent.natAbs)
  shortestFrom mantissa exponent n d 17 1

end Binary64

end Reckoner
