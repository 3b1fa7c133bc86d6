import Reckoner.Calculator
/-!
A desk: a calculator among sheets of expressions. The calculator writes on one sheet, and names can be
given to sheets, so that the one it writes on may have a name, and states can be kept under names.
-/
namespace Reckoner

/-- Sheets by number, the calculator and the number of its sheet, and what names refer to. The
calculator's buffer is what its sheet holds. -/
structure Desk where
  files : Files
  calculator : Calculator
  sheet : Nat
  sheets : List (Nat × Expression)
  slots : List (String × Nat)
  states : List (String × List UInt8)

namespace Desk

/-- A desk with a calculator on a first sheet. -/
def new (files : Files) (c : Calculator) : Desk := ⟨files, c, 0, [(0, c.buffer)], [], []⟩

def written (d : Desk) (c : Calculator) : Desk :=
  { d with calculator := c, sheets := putEntry d.sheet c.buffer d.sheets }

/-- The calculator has turned to a new sheet. -/
def turned (d : Desk) (c : Calculator) : Desk :=
  let sheet := d.sheets.length
  { d with calculator := c, sheet, sheets := d.sheets ++ [(sheet, c.buffer)] }

def slot? (d : Desk) (name : String) : Option Expression :=
  (d.slots.lookup name).bind fun sheet => d.sheets.lookup sheet

/-- Names a new sheet with a copy of the buffer. -/
def put (d : Desk) (name : String) : Desk :=
  let sheet := d.sheets.length
  { d with
    sheets := d.sheets ++ [(sheet, d.calculator.buffer)]
    slots := putEntry name sheet d.slots }

def label (d : Desk) (name : String) : Desk := { d with slots := putEntry name d.sheet d.slots }

/-- Turns to a copy of a named sheet. -/
def get? (d : Desk) (name : String) : Option Desk :=
  (d.slot? name).map fun e => d.turned { d.calculator with buffer := e }

def join? (d : Desk) (name : String) : Option Desk :=
  (d.slot? name).map fun e =>
    d.written { d.calculator with buffer := d.calculator.buffer.join e }

/-- Takes the last key press on a named sheet back. -/
def deleteOn? (d : Desk) (name : String) : Option Desk := do
  let sheet ← d.slots.lookup name
  let e ← d.sheets.lookup sheet
  let sheets := putEntry sheet e.delete d.sheets
  let buffer := if sheet = d.sheet then e.delete else d.calculator.buffer
  return { d with sheets, calculator := { d.calculator with buffer } }

end Desk

end Reckoner
