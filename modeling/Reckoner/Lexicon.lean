import Reckoner.Key
/-!
The words of typed text. A word is a function name with its parenthesis, `pi`, or a single
character; names are tried in order, so a longer one stands before any that ends it.
-/
namespace Reckoner.Lexicon

/-- The key that a single typed character stands for. -/
def charKey? (c : Char) : Option Key :=
  if c.isDigit then some (.digit (Fin.ofNat 10 (c.toNat - '0'.toNat)))
  else match c with
    | '.' | ',' => some .point
    | '+' => some (.binary .plus)
    | '-' | '−' => some (.binary .minus)
    | '*' | '×' => some (.binary .times)
    | '/' | '÷' => some (.binary .over)
    | '^' => some (.binary .power)
    | '√' => some .root
    | '!' => some (.suffix .factorial)
    | '²' => some (.suffix .square)
    | '%' => some (.suffix .percent)
    | '(' => some .opening
    | ')' => some .closing
    | 'π' => some (.constant .pi)
    | 'e' | 'E' => some (.constant .e)
    | _ => none

/-- Names of several characters and the keys they stand for, in the order they are tried. -/
def names : List (List Char × Key) :=
  [("arcsin(".toList, .function .arcsin), ("arccos(".toList, .function .arccos),
   ("arctan(".toList, .function .arctan), ("asin(".toList, .function .arcsin),
   ("acos(".toList, .function .arccos), ("atan(".toList, .function .arctan),
   ("sqrt(".toList, .root), ("sin(".toList, .function .sin), ("cos(".toList, .function .cos),
   ("tan(".toList, .function .tan), ("exp(".toList, .function .exp),
   ("log(".toList, .function .log), ("ln(".toList, .function .ln),
   ("pi".toList, .constant .pi)]

/-- The name that starts the text: its key and its length. -/
def name? (text : List Char) : Option (Key × Nat) :=
  (names.find? fun entry => entry.1.isPrefixOf text).map fun entry => (entry.2, entry.1.length)

end Reckoner.Lexicon
