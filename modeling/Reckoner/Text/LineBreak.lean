/-!
Line breaks. A carriage return, alone or before a line feed, ends a line like a line feed alone.
-/
namespace Reckoner.Text

/-- The text with every line ended by a line feed. -/
def unifyBreaks : List Char → List Char
  | [] => []
  | '\r' :: '\n' :: cs => '\n' :: unifyBreaks cs
  | c :: cs => (if c = '\r' then '\n' else c) :: unifyBreaks cs

end Reckoner.Text
