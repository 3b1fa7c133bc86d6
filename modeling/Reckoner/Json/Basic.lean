import Reckoner.Binary64
/-!
JSON values. A table keeps the order in which its names were first given.
-/
namespace Reckoner

/-- A JSON value; numbers without a fraction or an exponent are integers of any size. -/
inductive Json where
  | null
  | bool (b : Bool)
  | integer (n : Int)
  | real (x : Binary64)
  | text (s : String)
  | array (items : List Json)
  | table (entries : List (String × Json))
  deriving Inhabited, Repr

/-- Gives a name a value: in its place if the name is there, else at the end. -/
def putEntry {ν β : Type} [DecidableEq ν] (name : ν) (value : β) : List (ν × β) → List (ν × β)
  | [] => [(name, value)]
  | (name', value') :: entries =>
    if name' = name then (name, value) :: entries else (name', value') :: putEntry name value entries

namespace Json

/-- The value of a name in a table. -/
def get? (name : String) : Json → Option Json
  | table entries => entries.lookup name
  | _ => none

/-- Whether a value counts as true: all do but null, false, zeros and what is empty. -/
def truthy : Json → Bool
  | null => false
  | bool b => b
  | integer n => n ≠ 0
  | real (.finite _ mantissa _) => mantissa ≠ 0
  | real _ => true
  | text s => !s.isEmpty
  | array items => !items.isEmpty
  | table entries => !entries.isEmpty

end Json

end Reckoner
