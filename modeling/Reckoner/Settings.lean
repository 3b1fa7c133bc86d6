import Reckoner.Error
import Reckoner.Json.Reader
import Reckoner.Json.Writer
import Reckoner.Key
import Reckoner.Text.LineBreak
/-!
The settings and captions files. Settings are read anew each time they are asked for and laid over
the built-in ones; a file that is missing or is no JSON has nothing to lay over them. Captions
describe the settings and give the keys their looks.
-/
namespace Reckoner

/-- What is on disk: the texts of both files, and whether the settings file has a directory. -/
structure Files where
  settings : Option String
  captions : Option String
  writable : Bool := true

def Files.settingsText (files : Files) : Option String :=
  files.settings.map fun s => String.ofList (Text.unifyBreaks s.toList)

namespace Settings

/-- A setting's name. Names that are not text compare by value, and truth values count as 1 and 0. -/
inductive Name where
  | text (s : String)
  | number (q : Rat)
  | infinite (negative : Bool)
  | undefined
  | null
  deriving DecidableEq, Repr

/-- A setting: its name, how the name is written, and its value. -/
structure Entry where
  name : Name
  written : String
  value : Json

/-- Settings in order. -/
abbrev Table := List Entry

namespace Table

/-- Gives a name a value: in its place, and written as before, if the name is there, else at the end. -/
def put (entry : Entry) : Table → Table
  | [] => [entry]
  | e :: es => if e.name = entry.name then { e with value := entry.value } :: es else e :: put entry es

def get? (name : Name) (t : Table) : Option Json :=
  (t.find? fun e => e.name = name).map Entry.value

def toJson (t : Table) : Json :=
  .table (t.map fun e => (e.written, e.value))

end Table

def Entry.ofText (name : String) (value : Json) : Entry := ⟨.text name, name, value⟩

def defaults : Table :=
  [.ofText "degree_mode" (.bool false),
   .ofText "short_rep_digits" (.integer 12),
   .ofText "decimal_separator" (.text "."),
   .ofText "rational_max_bits" (.integer 10000),
   .ofText "debug" (.bool false)]

/-- How deeply arrays and tables may nest in a file. -/
def nestingLimit : Nat := 985

/-- A file's text as JSON, or nothing in place of one that is missing or malformed. -/
def contents? (file : Option String) : Except SettingsError (Option Json) :=
  match file.map (Json.read nestingLimit) with
  | none | some (.error .malformed) => .ok none
  | some (.ok value) => .ok (some value)
  | some (.error .tooManyDigits) => .error .wrongValue
  | some (.error .tooDeep) => .error .tooDeep

/-- The name that a value makes. Arrays and tables are no names. -/
def nameOf : Json → Except SettingsError Name
  | .text s => .ok (.text s)
  | .integer n => .ok (.number n)
  | .bool b => .ok (.number (if b then 1 else 0))
  | .real (.finite negative mantissa exponent) =>
    let size : BigFloat := ⟨mantissa, exponent⟩
    .ok (.number (if negative then -size.toRat else size.toRat))
  | .real (.infinite negative) => .ok (.infinite negative)
  | .real .nan => .ok .undefined
  | .null => .ok .null
  | .array _ | .table _ => .error .wrongType

/-- A setting with a value as its name. -/
def Entry.of (name value : Json) : Except SettingsError Entry := do
  let written :=
    match name with
    | .text s => s
    | name => Json.write 0 name
  return ⟨← nameOf name, written, value⟩

/-- The two parts of an entry: an array of two, a table of two names or a text of two characters. -/
def pairOf : Json → Except SettingsError (Json × Json)
  | .array [name, value] => .ok (name, value)
  | .table [(name, _), (value, _)] => .ok (.text name, .text value)
  | .text s =>
    match s.toList with
    | [name, value] => .ok (.text name.toString, .text value.toString)
    | _ => .error .wrongValue
  | .array _ | .table _ => .error .wrongValue
  | _ => .error .wrongType

/-- The entries of a settings file: those of a table, or of an array of entries. -/
def entriesOf : Json → Except SettingsError Table
  | .table entries => .ok (entries.map fun entry => .ofText entry.1 entry.2)
  | .array items => items.mapM fun item => do
    let (name, value) ← pairOf item
    Entry.of name value
  | .text s => if s.isEmpty then .ok [] else .error .wrongValue
  | _ => .error .wrongType

/-- All settings: the file's over the built-in ones. -/
def all (files : Files) : Except SettingsError Table := do
  let entries ← entriesOf ((← contents? files.settings).getD (.table []))
  return entries.foldl (fun table entry => table.put entry) defaults

/-- One setting; zero if there is none of that name. -/
def value (files : Files) (name : String) : Except SettingsError Json := do
  return ((← all files).get? (.text name)).getD (.integer 0)

/-- What is asked for by a value: all settings as a table, or one of them. -/
def load (files : Files) (name : Json) : Except SettingsError Json := do
  let table ← all files
  match name with
  | .text "all" => return table.toJson
  | name => return (table.get? (← nameOf name)).getD (.integer 0)

/-- A caption; zero if there is none of that name. Without a captions file everything is an empty
table. -/
def describe (files : Files) (name : Json) : Except SettingsError Json := do
  match ← contents? files.captions, name with
  | none, _ => return .table []
  | some value, .text "all" => return value
  | some (.table entries), .text name => return (entries.lookup name).getD (.integer 0)
  | some (.table _), name => (fun _ => .integer 0) <$> nameOf name
  | some _, _ => throw .notATable

/-- Writes settings to the file, if it has a directory; the result is what was written. -/
def save (files : Files) (table : Table) : Json × Files :=
  if files.writable then
    (table.toJson, { files with settings := some (Json.write 0 table.toJson) })
  else (.table [], files)

/-- Replaces the points of a machine-readable number by the decimal separator. -/
def localize (files : Files) (s : String) : Except SettingsError String := do
  let separator ← value files "decimal_separator"
  if !separator.truthy then return s
  else
    match separator with
    | .text separator =>
      return String.join (s.toList.map fun c => if c = '.' then separator else c.toString)
    | _ => throw .wrongType

/-- The caption of a key other than a digit, which the captions file may give. -/
def caption (files : Files) (key : Key) : Except SettingsError Json := do
  match key with
  | .digit d => return .text (← localize files (toString d.val))
  | key =>
    let keys ← describe files (.text "keys")
    return (keys.get? key.name.toLower).getD (.text key.glyph)

/-- The caption of the key with a number. -/
def captionOfNumber (files : Files) (number : Int) : Except Failure Json :=
  match Key.ofNumber? number with
  | some key => (caption files key).mapError .settings
  | none =>
    match describe files (.text "keys") with
    | .ok _ => .error .noSuchKey
    | .error e => .error (.settings e)

end Settings

end Reckoner
