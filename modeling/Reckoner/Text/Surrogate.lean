/-!
Surrogates without a partner. Text that names characters by code unit can name half of a pair, which
is no character; each such half has a private-use character that stands in for it, so that a text
can be kept and written again as it was.
-/
namespace Reckoner.Text

/-- What a text of another kind is made of: characters, and halves of surrogate pairs. -/
inductive CodePoint where
  | char (c : Char)
  | surrogate (unit : Nat)

/-- The character at a code point, if there is one. -/
def CodePoint.char? : CodePoint → Option Char
  | char c => some c
  | surrogate _ => none

/-- The first code unit that is half of a pair. -/
def firstSurrogate : Nat := 0xd800

/-- How many code units are halves of pairs. -/
def surrogateCount : Nat := 0x800

/-- Where the characters that stand in for them begin. -/
def standInBase : Nat := 0x10d800

/-- The character that stands in for a surrogate. -/
def standIn (unit : Nat) : Char := Char.ofNat (standInBase + (unit - firstSurrogate))

/-- The surrogate that a character stands in for. -/
def surrogate? (c : Char) : Option Nat :=
  if standInBase ≤ c.toNat && c.toNat < standInBase + surrogateCount then
    some (firstSurrogate + (c.toNat - standInBase))
  else none

end Reckoner.Text
