import Reckoner.Decimal
/-!
Decimal expansions, and the texts of numbers to zero or fewer digits. A count of digits that is not
positive leaves digits off an expansion: one of about `count + 13` leading digits, cut off rather than
rounded.
-/
namespace Reckoner.Decimal

/-- The binary logarithm of ten, times `10 ^ 15`. -/
def log2Ten : Nat := 3321928094887362

/-- The leading `bits` bits of a positive number. -/
def leading (bits : Nat) (x : BigFloat) : BigFloat :=
  let cut := bitLength x.mantissa.toNat - bits
  ⟨(x.mantissa.toNat >>> cut : Nat), x.exponent + cut⟩

/-- The least number of `bits` bits that is not below a positive number. -/
def leadingUp (bits : Nat) (x : BigFloat) : BigFloat :=
  let below := leading bits x
  if below.lt x then { below with mantissa := below.mantissa + 1 } else below

/-- The leading `bits` bits of a quotient of positive numbers. -/
def ratio (bits : Nat) (x y : BigFloat) : BigFloat :=
  let n := x.mantissa.toNat
  let d := y.mantissa.toNat
  let shift := bits + 1 + bitLength d - bitLength n
  leading bits ⟨((n <<< shift) / d : Nat), x.exponent - y.exponent - shift⟩

/-- `10 ^ k` to `bits` bits. A negative power is the reciprocal of a positive one, so that neither
exceeds the number it stands for. -/
def tenPower (bits : Nat) (k : Int) : BigFloat :=
  if 0 ≤ k then leading bits ⟨powTen k.toNat, 0⟩
  else ratio bits (BigFloat.ofInt 1) (leadingUp (bits + 5) ⟨powTen k.natAbs, 0⟩)

/-- The natural logarithm of two, cut off after 128 bits. -/
def ln2 : BigFloat := ⟨235865763225513294137944142764154484399, -128⟩

/-- The natural logarithm of ten, cut off after 130 bits. -/
def ln10 : BigFloat := ⟨783529105480883066805338482703447369891, -128⟩

/-- The decimal exponent next to a binary one, toward zero. The logarithms are cut off a few bits beyond
the exponent's own, so the result may fall short of the next integer. -/
def exponentOfTwo (exponent : Int) : Int :=
  let bits := bitLength exponent.natAbs + 5
  let product := (BigFloat.ofInt exponent.natAbs).mulExact (leading bits ln2)
  exponent.sign * (ratio bits product (leading bits ln10)).mantissaFloor 0

/-- How often two divides a positive number. -/
def trailingZeros (n : Nat) : Nat := (n ^^^ (n - 1)).log2

/-- A positive number, and zero; or, for one far from one, its quotient by a power of ten, and the
exponent of that. The power of ten goes with the exponent over which the mantissa is odd. -/
def nearOne (bits : Nat) (x : BigFloat) : BigFloat × Int :=
  if x.magnitude.natAbs ≤ 3500 then (x, 0)
  else
    let k := exponentOfTwo (x.exponent + trailingZeros x.mantissa.toNat)
    (ratio bits x (tenPower bits k), k)

/-- About `count + 13` leading digits of a number, and the exponent of the first. The number is cut off
after as many bits, and the decimal form of what is left after as many places. -/
def expansion (count : Int) (x : BigFloat) : List Char × Int :=
  let bits := ((count + 10) * log2Ten).tdiv (powTen 15) + 10
  let (x, taken) := nearOne bits.toNat x.abs
  let scale := (bits - x.magnitude).toNat
  let places := (scale * powTen 15 + log2Ten / 2) / log2Ten
  let digits := (toString ((x.mantissaFloor scale * powTen places) >>> scale)).toList
  (digits, taken + digits.length - places - 1)

/-- A number of whose expansion the last `count` digits are left off; nothing if there are not as many.
If the first of them is five or more, the rest counts as a power of ten, the next one above. -/
def abridged (count : Nat) (x : BigFloat) : Option String :=
  if x.isZero then some "0.0"
  else
    let (digits, exponent) := expansion (-count) x
    let left := digits.length - count
    if digits.length < count then none
    else if (digits.drop left).head?.any ('5' ≤ ·) then
      some (layOut (-5) (-count) (x.mantissa < 0) ['1'] (exponent + 1))
    else some (layOut (-5) (-count) (x.mantissa < 0) (digits.take left) exponent)

/-- A number of which no digit is shown: its sign and its order of magnitude. -/
def magnitudeOnly (x : BigFloat) : String :=
  if x.isZero then ".0"
  else
    let (digits, exponent) := expansion 0 x
    let exponent := if digits.head?.any ('5' ≤ ·) then exponent + 1 else exponent
    String.ofList ((if x.mantissa < 0 then ['-'] else []) ++ '.' :: '0' :: exponentText exponent)

end Reckoner.Decimal
