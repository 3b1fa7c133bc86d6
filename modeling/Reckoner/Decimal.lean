import Reckoner.BigFloat
import Reckoner.Power
/-!
Decimal text of numbers. `significant` rounds a positive fraction to a number of significant digits,
to nearest with ties to even, and `layOut` says how digits are laid out.
-/
namespace Reckoner.Decimal

/-- A decimal number `digits * 10 ^ (exponent + 1 - count)`, where `digits` has `count` digits. -/
structure Rounded where
  digits : Nat
  count : Nat
  exponent : Int
  deriving DecidableEq, Repr

/-- `n / d` to nearest, ties to even. -/
def divRoundEven (n d : Nat) : Nat :=
  let q := n / d
  let r := n % d
  if d < 2 * r || (2 * r = d && q % 2 = 1) then q + 1 else q

/-- `n / d` times `10 ^ k`, as a numerator and a denominator. -/
def scale (n d : Nat) (k : Int) : Nat × Nat :=
  if 0 ≤ k then (n * powTen k.toNat, d) else (n, d * powTen k.natAbs)

/-- Whether `10 ^ k ≤ n / d`. -/
def reaches (n d : Nat) (k : Int) : Bool :=
  let (n, d) := scale n d (-k)
  d ≤ n

/-- The exponent of the first digit of a positive fraction, by the length of its integer part or of what
goes into its denominator. -/
def exponentByLength (n d : Nat) : Int :=
  if d ≤ n then (toString (n / d)).length - 1 else -(toString ((d - 1) / n)).length

/-- The exponent of the first digit of a positive fraction. The binary lengths of its parts leave few
candidates, unless they are beyond all measure. -/
def exponent (n d : Nat) : Int :=
  let guess := ((bitLength n : Int) - bitLength d) * 30102999566398119521 / powTen 20
  if reaches n d (guess + 1) then
    if reaches n d (guess + 2) then exponentByLength n d else guess + 1
  else if reaches n d guess then guess
  else if reaches n d (guess - 1) then guess - 1
  else exponentByLength n d

def significant (count n d : Nat) : Rounded :=
  let first := exponent n d
  let (n, d) := scale n d (count - 1 - first)
  let digits := divRoundEven n d
  if digits = powTen count then ⟨powTen (count - 1), count, first + 1⟩ else ⟨digits, count, first⟩

/-- Drops the zeros at the end, but not the first character. -/
def stripZeros (s : List Char) : List Char :=
  match s with
  | [] => []
  | c :: cs => c :: (cs.reverse.dropWhile (· = '0')).reverse

/-- The digits with the point `places` digits after the start, zeros filling gaps on either side, and at
least one digit after the point. -/
def fixed (digits : List Char) (places : Int) : List Char :=
  let whole :=
    if places ≤ 0 then ['0']
    else digits.take places.toNat ++ List.replicate (places.toNat - digits.length) '0'
  let fraction := List.replicate (-places).toNat '0' ++ digits.drop places.toNat
  whole ++ '.' :: stripZeros (if fraction.isEmpty then ['0'] else fraction)

def exponentText (exponent : Int) : List Char :=
  'e' :: (if exponent < 0 then '-' else '+') :: (toString exponent.natAbs).toList

/-- Sign, digits and exponent as text. Exponents strictly between `low` and `high` are written out in
full; otherwise one digit stands before the point, and an exponent other than zero follows. -/
def layOut (low high : Int) (negative : Bool) (digits : List Char) (exponent : Int) : String :=
  let body :=
    if low < exponent && exponent < high then fixed digits (exponent + 1)
    else
      (if digits.isEmpty then ['.', '0'] else fixed digits 1) ++
        (if exponent = 0 then [] else exponentText exponent)
  String.ofList (if negative then '-' :: body else body)

/-- A number to `count` significant digits, zeros at the end dropped. -/
def render (count : Nat) (x : BigFloat) : String :=
  if x.isZero then "0.0"
  else
    let n := x.mantissa.natAbs
    let r :=
      if 0 ≤ x.exponent then significant count (n <<< x.exponent.toNat) 1
      else significant count n (1 <<< x.exponent.natAbs)
    layOut (min (-((count / 3 : Nat) : Int)) (-5)) count (x.mantissa < 0) (toString r.digits).toList
      r.exponent

end Reckoner.Decimal
