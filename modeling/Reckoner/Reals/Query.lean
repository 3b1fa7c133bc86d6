import Reckoner.Decimal
import Reckoner.Binary64
import Reckoner.Reals.Approximation
/-!
Questions about the numbers of a graph: their digits, their order and whether they are integers. A
query reads and extends the cache of approximations, also when it fails.
-/
namespace Reckoner.Reals

/-- A computation on a graph's cache that may fail. -/
abbrev Query := ExceptT ArithmeticError (StateM (Cache BigFloat))

/-- Bits asked for beyond a relative precision. -/
def guardBits : Int := 32

variable (kernel : Kernel) (g : Graph)

/-- A number within `2 ^ -precision` of the node's. -/
def approximateTo (node : Nat) (precision : Int) : Query BigFloat :=
  fun cache => approximate (g.programs kernel) node precision cache

/-- A number with about `bits` significant bits of the node's. -/
def approximateBits (node : Nat) (bits : Int) : Query BigFloat := do
  let rough ← approximateTo kernel g node guardBits
  if rough.isZero then approximateTo kernel g node (bits + guardBits)
  else approximateTo kernel g node (bits - rough.magnitude + guardBits)

/-- The sign of a number, where one of at most `2 ^ -precision` in size counts as zero. -/
def signBeyond (precision : Int) (x : BigFloat) : Int :=
  let tolerance := BigFloat.twoPow (-precision)
  if x.abs.le tolerance then 0 else x.mantissa.sign

/-- −1, 0 or 1 as one node is less than, within `2 ^ -precision` of, or greater than another. -/
def compare (a b : Nat) (precision : Int) : Query Int := do
  let x ← approximateTo kernel g a (precision + 2)
  let y ← approximateTo kernel g b (precision + 2)
  return signBeyond precision (x.subExact y)

/-- −1, 0 or 1 as a node is negative, within `2 ^ -precision` of zero, or positive. -/
def signum (node : Nat) (precision : Int) : Query Int := do
  let x ← approximateTo kernel g node (precision + 2)
  return signBeyond precision x

/-- Whether a node is within `2 ^ -precision` of an integer. -/
def isInteger (node : Nat) (precision : Int) : Query Bool := do
  let x ← approximateTo kernel g node (precision + 2)
  return signBeyond precision (x.subExact (BigFloat.ofInt x.nearestInt)) = 0

/-- The integer nearest to a node. -/
def toInteger (node : Nat) : Query Int := do
  let x ← approximateTo kernel g node 2
  return x.nearestInt

/-- The integer that a node is within `2 ^ -precision` of, if there is one. -/
def integer? (node : Nat) (precision : Int) : Query (Option Int) := do
  if ← isInteger kernel g node precision then some <$> toInteger kernel g node else return none

/-- The significant bits that go with a number of decimal digits. -/
def bitsForDigits (digits : Nat) : Nat := digits * 333 / 100 + 8

/-- A node to a number of significant decimal digits. -/
def render (node : Nat) (digits : Nat) : Query String := do
  let x ← approximateBits kernel g node (bitsForDigits digits)
  return Decimal.render digits x

def toBinary64 (node : Nat) : Query Binary64 := do
  let x ← approximateBits kernel g node 53
  return Binary64.ofBigFloat x

end Reckoner.Reals
