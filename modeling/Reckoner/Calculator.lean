import Reckoner.Codec.Reader
/-!
The calculator: a buffer with an expression, the unit of angles, and how many digits a short text has.
The buffer can be collapsed into one token with its value, saved and restored.
-/
namespace Reckoner

open Reals

/-- A calculator. `names` is the next free name for a collapsed token, and `memory` what is kept of the
numbers evaluated; both are common to all calculators, one of which works at a time. -/
structure Calculator where
  degrees : Bool
  shortDigits : Json
  buffer : Expression
  names : Nat
  memory : Memory

namespace Calculator

/-- A calculator with an empty buffer; the settings supply the unit of angles unless it is given. -/
def start (files : Files) (degrees : Option Bool) (names : Nat) (memory : Memory) :
    Except SettingsError Calculator := do
  let degrees ←
    match degrees with
    | some b => pure b
    | none => Json.truthy <$> Settings.value files "degree_mode"
  return ⟨degrees, ← Settings.value files "short_rep_digits", [], names, memory⟩

/-- Presses a key, and tells whether it was taken. -/
def press (c : Calculator) (k : Key) : Bool × Calculator :=
  let (taken, buffer) := c.buffer.add k
  (taken, { c with buffer })

/-- Types text; what could not be converted is left over. -/
def type (c : Calculator) (text : String) : Option String × Calculator :=
  let (buffer, rest) := c.buffer.type text.toList
  (if rest.isEmpty then none else some (String.ofList rest), { c with buffer })

def delete (c : Calculator) : Calculator := { c with buffer := c.buffer.delete }

def clear (c : Calculator) : Calculator := { c with buffer := [] }

/-- Switches the unit of angles and saves it in the settings, which must be readable. -/
def setDegrees (files : Files) (degrees : Bool) (c : Calculator) :
    Except SettingsError Files × Calculator :=
  let saved := do
    let table ← Settings.all files
    return (Settings.save files (table.put (.ofText "degree_mode" (.bool degrees)))).2
  (saved, { c with degrees })

/-- Computes with the memory. -/
def recalling {α : Type} (c : Calculator) (x : Recall Failure α) : Except Failure α × Calculator :=
  let (result, memory) := x c.memory
  (result, { c with memory })

def evaluate (a : Arithmetic) (required : Bool) (c : Calculator) :
    Except Failure Dual × Calculator :=
  c.recalling (a.evaluate c.degrees required c.buffer)

def shortText (a : Arithmetic) (x : Dual) (c : Calculator) : Except Failure String × Calculator :=
  c.recalling (a.shortText c.shortDigits x)

/-- Whether a failure says that an expression has no value. -/
def isRefusal : Failure → Bool
  | .grammar _ | .arithmetic _ | .format _ => true
  | _ => false

/-- Takes a free name for a value. -/
def name (x : Dual) (c : Calculator) : Dual × Calculator :=
  (x.keptAs c.names, { c with names := c.names + 1 })

/-- Replaces the buffer by a collapsed token, and tells whether it did. The buffer stays if it is empty,
a single number, or without a value. -/
def collapse (a : Arithmetic) (c : Calculator) : Except Failure Bool × Calculator :=
  if c.buffer.isEmpty || c.buffer.isConstant then (.ok false, c)
  else
    match c.evaluate a true with
    | (.error e, c) => (if isRefusal e then .ok false else .error e, c)
    | (.ok value, c) =>
      let (kept, named) := c.name value
      match named.shortText a kept with
      | (.error e, c) => (.error e, c)
      | (.ok short, named) =>
        (.ok true, { named with buffer := c.buffer.abbreviate c.names value c.degrees short })

/-- The report of a failed evaluation made on the side, with the expression as shown. Every failure that
has no report of its own is an unexpected one. -/
def sideReport (equation : String) (e : Failure) : Report :=
  match e.report? with
  | some report => { report with equation := some equation }
  | none => ⟨.general, "Unexpected crash:", Report.generalCode, some equation⟩

/-- Evaluates the buffer as it is now, on the side, and reports failures with the expression. -/
def evaluateAside (files : Files) (a : Arithmetic) (required : Bool) (c : Calculator) :
    Except SettingsError (Except Report Dual) × Calculator :=
  match c.evaluate a required with
  | (.ok value, c) => (.ok (.ok value), c)
  | (.error e, c) => ((fun equation => .error (sideReport equation e)) <$> c.buffer.display files, c)

def save (c : Calculator) : Except Failure (List UInt8) := Codec.dumpsState c.degrees c.buffer

/-- Restores a saved state. A calculator that cannot be restored stays as it is, but for the names used
and the numbers evaluated on the way. -/
def restore (a : Arithmetic) (data : List UInt8) (c : Calculator) :
    Except Failure Unit × Calculator :=
  match Codec.loadsState a c.names c.memory data with
  | (.ok (degrees, buffer), names, memory) => (.ok (), { c with degrees, buffer, names, memory })
  | (.error e, names, memory) => (.error e, { c with names, memory })

end Calculator

end Reckoner
