/-!
Sets of characters given as inclusive ranges of code points.
-/
namespace Reckoner.Text

/-- Inclusive ranges of code points. -/
abbrev Ranges := Array (Nat × Nat)

/-- Whether a code point lies in one of the ranges. -/
def Ranges.has (table : Ranges) (code : Nat) : Bool :=
  table.any fun range => range.1 ≤ code && code ≤ range.2

end Reckoner.Text
