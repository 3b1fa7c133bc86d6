import Reckoner.BigFloat
/-!
Elementary functions in fixed point: an integer `n` at scale `p` stands for `n / 2 ^ p`. Each series is
summed until its terms vanish at the scale, so a result is off by about as many units as it has
terms.
-/
namespace Reckoner.FixedPoint

def ofBigFloat (p : Nat) (x : BigFloat) : Int :=
  let shift := x.exponent + p
  if 0 ≤ shift then x.mantissa * (1 <<< shift.toNat : Nat) else x.mantissa >>> shift.natAbs

/-- A scaled integer as a number of `bits` bits. -/
def toBigFloat (p bits : Nat) (n : Int) : BigFloat :=
  BigFloat.round bits ⟨n, -p⟩

/-- The product of two scaled integers, rounded down. -/
def mul (p : Nat) (x y : Int) : Int := (x * y) >>> p

/-- Some successive terms of a series, each term a ratio of integers times the one before it: the
product of their ratios as a fraction, and their sum over the same denominator. -/
structure Stretch where
  num : Int
  den : Int
  sum : Int

def Stretch.append (x y : Stretch) : Stretch :=
  ⟨x.num * y.num, x.den * y.den, x.sum * y.den + x.num * y.sum⟩

/-- The `count` terms from the one after `start` on, put together from halves. -/
def stretch (num den : Nat → Int) (start count : Nat) : Stretch :=
  if h : count ≤ 1 then ⟨num (start + 1), den (start + 1), num (start + 1)⟩
  else
    (stretch num den start (count / 2)).append
      (stretch num den (start + count / 2) (count - count / 2))
termination_by count

/-- One and the `count` terms after it, at scale `p`. -/
def series (p : Nat) (num den : Nat → Int) (count : Nat) : Int :=
  let s := stretch num den 0 count
  (s.den + s.sum) * (1 <<< p : Nat) / s.den

/-- The terms after which powers of `1 / k²` vanish at scale `p`. -/
def reciprocalTerms (p k : Nat) : Nat := p / (2 * (bitLength k - 1)) + 2

/-- The arc tangent of `1 / k` at scale `p`, for `2 ≤ k`: term by term it is
`-(2 j - 1) / ((2 j + 1) k²)` times the term before. -/
def arctanReciprocal (p k : Nat) : Int :=
  series p (fun j => -((2 * j - 1 : Nat) : Int)) (fun j => ((2 * j + 1) * k * k : Nat))
    (reciprocalTerms p k) / k

/-- The inverse hyperbolic tangent of `1 / k` at scale `p`, for `2 ≤ k`. -/
def artanhReciprocal (p k : Nat) : Int :=
  series p (fun j => ((2 * j - 1 : Nat) : Int)) (fun j => ((2 * j + 1) * k * k : Nat))
    (reciprocalTerms p k) / k

/-- π at scale `p`, as 16 arctan (1/5) − 4 arctan (1/239). -/
def pi (p : Nat) : Int :=
  (16 * arctanReciprocal (p + 8) 5 - 4 * arctanReciprocal (p + 8) 239) / 256

/-- The natural logarithm of two at scale `p`, as 2 artanh (1/3). -/
def ln2 (p : Nat) : Int :=
  (2 * artanhReciprocal (p + 8) 3) / 256

/-- The first number from `k` on by whose factorial `bits` more bits are exceeded, in at most so many
steps. -/
def factorialTerms : Nat → Nat → Nat → Nat
  | 0, k, _ => k
  | steps + 1, k, bits =>
    if bits < bitLength k then k else factorialTerms steps (k + 1) (bits - (bitLength k - 1))

/-- The base of natural logarithms at scale `p`: each term of the series is `1 / j` of the one before. -/
def e (p : Nat) : Int :=
  series p (fun _ => 1) (fun j => (j : Nat)) (factorialTerms (p + 2) 2 p)

/-- Sums `t + t x / (k + 1) + t x² / ((k + 1) (k + 2)) + …`. -/
def expSeries (p : Nat) (x : Int) : Nat → Int → Nat → Int → Int
  | 0, _, _, sum => sum
  | steps + 1, t, k, sum =>
    if t = 0 then sum
    else
      let next := mul p t x / ((k + 1 : Nat) : Int)
      expSeries p x steps next (k + 1) (sum + t)

def squared (p : Nat) : Nat → Int → Int
  | 0, x => x
  | times + 1, x => squared p times (mul p x x)

/-- The exponential of a scaled integer from zero to one, at scale `p`. The argument is halved often
enough for a short series, and the sum squared as often. -/
def exp (p : Nat) (x : Int) : Int :=
  let halvings := p.sqrt
  let wide := p + 2 * halvings + 8
  let part := x * (1 <<< (halvings + 8) : Nat)
  squared wide halvings (expSeries wide part (wide + 2) (1 <<< wide : Nat) 0 0) >>> (wide - p)

/-- Sums `t − t y / ((k + 1) (k + 2)) + …` for the square `y` of the argument. -/
def circularSeries (p : Nat) (y : Int) : Nat → Int → Nat → Int → Int
  | 0, _, _, sum => sum
  | steps + 1, t, k, sum =>
    if t = 0 || t = -1 then sum
    else
      let next := -(mul p t y / (((k + 1) * (k + 2) : Nat) : Int))
      circularSeries p y steps next (k + 2) (sum + t)

/-- The sine of a scaled integer between −1 and 1. -/
def sin (p : Nat) (x : Int) : Int :=
  circularSeries p (mul p x x) (p + 2) x 1 0

/-- The cosine of a scaled integer between −1 and 1. -/
def cos (p : Nat) (x : Int) : Int :=
  circularSeries p (mul p x x) (p + 2) (1 <<< p : Nat) 0 0

/-- Sums `t / d ∓ t y / (d + 2) + …`: the arc tangent and its hyperbolic counterpart. -/
def inverseSeries (p : Nat) (y : Int) : Nat → Int → Nat → Int → Int
  | 0, _, _, sum => sum
  | steps + 1, t, d, sum =>
    if t = 0 || t = -1 then sum
    else inverseSeries p y steps (mul p t y) (d + 2) (sum + t / (d : Int))

/-- The inverse hyperbolic tangent of a scaled integer between −1/2 and 1/2. -/
def artanh (p : Nat) (x : Int) : Int :=
  inverseSeries p (mul p x x) (p + 2) x 1 0

/-- `tan (a / 2)` from `tan a`, for a scaled integer between zero and one. -/
def halfAngle (p : Nat) (t : Int) : Int :=
  let hypotenuse := (((1 <<< (2 * p) : Nat) : Int) + t * t).toNat.sqrt
  (t * (1 <<< p : Nat)) / (((1 <<< p : Nat) : Int) + hypotenuse)

/-- The arc tangent of a scaled integer between zero and one, by way of a sixteenth of the angle. -/
def arctan (p : Nat) (x : Int) : Int :=
  let t := halfAngle p (halfAngle p (halfAngle p (halfAngle p x)))
  16 * inverseSeries p (-(mul p t t)) (p + 2) t 1 0

end Reckoner.FixedPoint
