import Reckoner.Json.Basic
import Reckoner.Text.Quoted
import Reckoner.Text.Surrogate
/-!
Writing JSON, an entry or item a line, indented by four blanks a level. Everything but visible ASCII is
escaped, a character beyond U+FFFF as two code units.
-/
namespace Reckoner.Json

def unitEscape (unit : Nat) : String := "\\u" ++ Text.hex 4 unit

def writeChar (c : Char) : String :=
  if c = '"' then "\\\""
  else if c = '\\' then "\\\\"
  else if c = '\n' then "\\n"
  else if c = '\r' then "\\r"
  else if c = '\t' then "\\t"
  else if c.toNat = 8 then "\\b"
  else if c.toNat = 12 then "\\f"
  else if 0x20 ≤ c.toNat && c.toNat < 0x7f then c.toString
  else if c.toNat < 0x10000 then unitEscape c.toNat
  else
    match Text.surrogate? c with
    | some unit => unitEscape unit
    | none =>
      let above := c.toNat - 0x10000
      unitEscape (0xd800 + above / 0x400) ++ unitEscape (0xdc00 + above % 0x400)

def writeText (s : String) : String :=
  "\"" ++ String.join (s.toList.map writeChar) ++ "\""

/-- A double by its shortest decimal: written out from 10⁻⁴ up to 10¹⁶, else with an exponent of at
least two digits. -/
def writeReal : Binary64 → String
  | .nan => "NaN"
  | .infinite negative => if negative then "-Infinity" else "Infinity"
  | .finite negative mantissa exponent =>
    let body :=
      if mantissa = 0 then "0.0"
      else
        let r := Binary64.shortest mantissa exponent
        let digits := (toString r.digits).toList
        if -5 < r.exponent && r.exponent < 16 then
          String.ofList (Decimal.fixed digits (r.exponent + 1))
        else
          let fraction := (digits.drop 1).reverse.dropWhile (· = '0')
          let places := toString r.exponent.natAbs
          String.ofList (digits.take 1 ++ (if fraction.isEmpty then [] else '.' :: fraction.reverse))
            ++ (if r.exponent < 0 then "e-" else "e+")
            ++ (if places.length < 2 then "0" ++ places else places)
    if negative then "-" ++ body else body

/-- A line break and the indentation of a level. -/
def newLine (level : Nat) : String :=
  String.ofList ('\n' :: List.replicate (4 * level) ' ')

mutual

def write (level : Nat) : Json → String
  | .null => "null"
  | .bool b => if b then "true" else "false"
  | .integer n => toString n
  | .real x => writeReal x
  | .text s => writeText s
  | .array [] => "[]"
  | .array items => "[" ++ writeItems (level + 1) items ++ newLine level ++ "]"
  | .table [] => "\x7b\x7d"
  | .table entries => "\x7b" ++ writeEntries (level + 1) entries ++ newLine level ++ "\x7d"

/-- Values, each on a line of its own. -/
def writeItems (level : Nat) : List Json → String
  | [] => ""
  | [item] => newLine level ++ write level item
  | item :: items => newLine level ++ write level item ++ "," ++ writeItems level items

/-- Entries, each on a line of its own. -/
def writeEntries (level : Nat) : List (String × Json) → String
  | [] => ""
  | [(name, value)] => newLine level ++ writeText name ++ ": " ++ write level value
  | (name, value) :: entries =>
    newLine level ++ writeText name ++ ": " ++ write level value ++ "," ++
      writeEntries level entries

end

end Reckoner.Json
