import Reckoner.Json.Basic
import Reckoner.Text.Numeral
import Reckoner.Text.Surrogate
/-!
Reading JSON. The whole text must be one value between blanks; `NaN`, `Infinity` and `-Infinity` are
numbers, and of an entry given twice the last value counts. An integer too long to convert and
nesting beyond a given depth are errors of their own.
-/
namespace Reckoner.Json

/-- Why a text is not read. -/
inductive ReadError where
  | malformed
  | tooManyDigits
  | tooDeep
  deriving DecidableEq, Repr

def skipBlanks (cs : List Char) : List Char :=
  cs.dropWhile fun c => c = ' ' || c = '\t' || c = '\n' || c = '\r'

def hexDigit? (c : Char) : Option Nat :=
  if '0' ≤ c && c ≤ '9' then some (c.toNat - '0'.toNat)
  else if 'a' ≤ c && c ≤ 'f' then some (c.toNat - 'a'.toNat + 10)
  else if 'A' ≤ c && c ≤ 'F' then some (c.toNat - 'A'.toNat + 10)
  else none

def hexFour : List Char → Except ReadError (Nat × List Char)
  | a :: b :: c :: d :: cs =>
    match hexDigit? a, hexDigit? b, hexDigit? c, hexDigit? d with
    | some a, some b, some c, some d => .ok (((a * 16 + b) * 16 + c) * 16 + d, cs)
    | _, _, _, _ => .error .malformed
  | _ => .error .malformed

/-- The character of an escape by code unit. Two surrogates make one character; one without a partner
is kept as what stands in for it. -/
def escapedUnit (cs : List Char) : Except ReadError (Char × List Char) := do
  let (unit, cs) ← hexFour cs
  if 0xd800 ≤ unit && unit < 0xdc00 then
    match cs with
    | '\\' :: 'u' :: rest =>
      match hexFour rest with
      | .ok (low, rest) =>
        if 0xdc00 ≤ low && low < 0xe000 then
          return (Char.ofNat (0x10000 + (unit - 0xd800) * 0x400 + (low - 0xdc00)), rest)
        else return (Text.standIn unit, cs)
      | .error e => .error e
    | _ => return (Text.standIn unit, cs)
  else if 0xdc00 ≤ unit && unit < 0xe000 then return (Text.standIn unit, cs)
  else return (Char.ofNat unit, cs)

def escaped : List Char → Except ReadError (Char × List Char)
  | '"' :: cs => .ok ('"', cs)
  | '\\' :: cs => .ok ('\\', cs)
  | '/' :: cs => .ok ('/', cs)
  | 'b' :: cs => .ok (Char.ofNat 8, cs)
  | 'f' :: cs => .ok (Char.ofNat 12, cs)
  | 'n' :: cs => .ok ('\n', cs)
  | 'r' :: cs => .ok ('\r', cs)
  | 't' :: cs => .ok ('\t', cs)
  | 'u' :: cs => escapedUnit cs
  | _ => .error .malformed

/-- The rest of a text up to its closing quote, after `read` in reverse. -/
def readText : Nat → List Char → List Char → Except ReadError (String × List Char)
  | 0, _, _ => .error .malformed
  | _, _, [] => .error .malformed
  | _ + 1, read, '"' :: cs => .ok (String.ofList read.reverse, cs)
  | steps + 1, read, '\\' :: cs => do
    let (c, cs) ← escaped cs
    readText steps (c :: read) cs
  | steps + 1, read, c :: cs =>
    if c.toNat < 0x20 then .error .malformed else readText steps (c :: read) cs

/-- A run of ASCII digits and what follows. -/
def splitDigits (cs : List Char) : List Char × List Char :=
  (cs.takeWhile Char.isDigit, cs.dropWhile Char.isDigit)

/-- The value of ASCII digits. -/
def digitsValue (ds : List Char) : Nat :=
  ds.foldl (fun n d => 10 * n + (d.toNat - '0'.toNat)) 0

/-- The double nearest to `digits * 10 ^ exponent`. -/
def nearestReal (negative : Bool) (digits : List Char) (exponent : Int) : Binary64 :=
  let n := digitsValue digits
  if n = 0 || exponent + digits.length < -400 then .finite negative 0 (-1074)
  else if 400 < exponent && n ≠ 0 then .infinite negative
  else
    let (n, d) := Decimal.scale n 1 exponent
    Binary64.ofFraction negative n d

def fractionPart : List Char → List Char × List Char
  | '.' :: cs =>
    let (ds, rest) := splitDigits cs
    if ds.isEmpty then ([], '.' :: cs) else (ds, rest)
  | cs => ([], cs)

def exponentPart : List Char → Option Int × List Char
  | c :: cs =>
    if c = 'e' || c = 'E' then
      let (negative, rest) := Text.signed cs
      let (ds, rest) := splitDigits rest
      if ds.isEmpty then (none, c :: cs)
      else (some (Text.withSign negative (digitsValue ds)), rest)
    else (none, c :: cs)
  | [] => (none, [])

def readNumber (negative : Bool) (cs : List Char) : Except ReadError (Json × List Char) :=
  let (whole, rest) :=
    match cs with
    | '0' :: rest => (['0'], rest)
    | cs => splitDigits cs
  if whole.isEmpty then .error .malformed
  else
    let (fraction, rest) := fractionPart rest
    let (exponent, rest) := exponentPart rest
    match fraction, exponent with
    | [], none =>
      if Text.digitLimit < whole.length then .error .tooManyDigits
      else .ok (.integer (Text.withSign negative (digitsValue whole)), rest)
    | fraction, exponent =>
      .ok (.real (nearestReal negative (whole ++ fraction)
        (exponent.getD 0 - fraction.length)), rest)

/-- What follows a word that starts the text. -/
def afterWord? (word : String) (cs : List Char) : Option (List Char) :=
  if word.toList.isPrefixOf cs then some (cs.drop word.length) else none

/-- A value that is a single word or number. -/
def readAtom (cs : List Char) : Except ReadError (Json × List Char) :=
  match afterWord? "null" cs with
  | some rest => .ok (.null, rest)
  | none =>
  match afterWord? "true" cs with
  | some rest => .ok (.bool true, rest)
  | none =>
  match afterWord? "false" cs with
  | some rest => .ok (.bool false, rest)
  | none =>
  match afterWord? "NaN" cs with
  | some rest => .ok (.real .nan, rest)
  | none =>
  match afterWord? "Infinity" cs with
  | some rest => .ok (.real (.infinite false), rest)
  | none =>
  match afterWord? "-Infinity" cs with
  | some rest => .ok (.real (.infinite true), rest)
  | none =>
  match cs with
  | '-' :: cs => readNumber true cs
  | cs => readNumber false cs

mutual

/-- A value in which arrays and tables nest to at most `depth`, in at most so many steps. -/
def readValue (depth : Nat) : Nat → List Char → Except ReadError (Json × List Char)
  | 0, _ => .error .malformed
  | steps + 1, '"' :: cs => do
    let (s, cs) ← readText (steps + 1) [] cs
    return (.text s, cs)
  | steps + 1, '[' :: cs =>
    match depth with
    | 0 => .error .tooDeep
    | depth + 1 =>
      match skipBlanks cs with
      | ']' :: cs => .ok (.array [], cs)
      | cs => do
        let (items, cs) ← readItems depth steps cs
        return (.array items, cs)
  | steps + 1, '\x7b' :: cs =>
    match depth with
    | 0 => .error .tooDeep
    | depth + 1 =>
      match skipBlanks cs with
      | '\x7d' :: cs => .ok (.table [], cs)
      | cs => do
        let (entries, cs) ← readEntries depth steps [] cs
        return (.table entries, cs)
  | _ + 1, cs => readAtom cs

/-- One or more values, up to a closing bracket. -/
def readItems (depth : Nat) : Nat → List Char → Except ReadError (List Json × List Char)
  | 0, _ => .error .malformed
  | steps + 1, cs => do
    let (item, cs) ← readValue depth steps cs
    match skipBlanks cs with
    | ']' :: cs => return ([item], cs)
    | ',' :: cs =>
      let (items, cs) ← readItems depth steps (skipBlanks cs)
      return (item :: items, cs)
    | _ => .error .malformed

/-- One or more entries, up to a closing brace, after those already read. -/
def readEntries (depth : Nat) : Nat → List (String × Json) → List Char →
    Except ReadError (List (String × Json) × List Char)
  | 0, _, _ => .error .malformed
  | steps + 1, entries, '"' :: cs => do
    let (name, cs) ← readText (steps + 1) [] cs
    match skipBlanks cs with
    | ':' :: cs =>
      let (value, cs) ← readValue depth steps (skipBlanks cs)
      let entries := putEntry name value entries
      match skipBlanks cs with
      | '\x7d' :: cs => return (entries, cs)
      | ',' :: cs => readEntries depth steps entries (skipBlanks cs)
      | _ => .error .malformed
    | _ => .error .malformed
  | _ + 1, _, _ => .error .malformed

end

/-- Reads a text that is one value, in which arrays and tables nest to at most `depth`. -/
def read (depth : Nat) (s : String) : Except ReadError Json := do
  let cs := s.toList
  let (value, rest) ← readValue depth (2 * cs.length + 2) (skipBlanks cs)
  if (skipBlanks rest).isEmpty then return value else .error .malformed

end Reckoner.Json
