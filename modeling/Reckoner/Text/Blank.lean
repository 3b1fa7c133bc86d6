import Reckoner.Text.Ranges
/-!
Blank characters of every script, and trimming them from both ends of a text.
-/
namespace Reckoner.Text

/-- White space, including the information separators U+001C to U+001F. -/
def blanks : Ranges :=
  #[(0x9, 0xd), (0x1c, 0x20), (0x85, 0x85), (0xa0, 0xa0), (0x1680, 0x1680), (0x2000, 0x200a),
   (0x2028, 0x2029), (0x202f, 0x202f), (0x205f, 0x205f), (0x3000, 0x3000)]

def isBlank (c : Char) : Bool :=
  blanks.has c.toNat

/-- Drops the characters satisfying `p` from both ends. -/
def trim (p : Char → Bool) (cs : List Char) : List Char :=
  ((cs.dropWhile p).reverse.dropWhile p).reverse

end Reckoner.Text
