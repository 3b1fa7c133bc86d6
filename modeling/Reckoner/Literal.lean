import Reckoner.Dual
import Reckoner.Settings
import Reckoner.Text.Quoted
/-!
Numbers as they are typed: digits before the point, the point, and digits after it.
-/
namespace Reckoner

/-- A number being typed, possibly incomplete. -/
structure Literal where
  whole : String
  point : Bool
  fraction : String
  deriving DecidableEq, Repr

namespace Literal

def empty : Literal := ⟨"", false, ""⟩

def isEmpty (l : Literal) : Bool := !l.point && l.whole.isEmpty

/-- The text that a key adds to a number: its digit, or −1 for a key that is none. -/
def digitText (k : Key) : String :=
  match k.digit? with
  | some d => toString d.val
  | none => "-1"

/-- Types a key, and tells whether it was taken: a second point is not. -/
def type (l : Literal) (k : Key) : Bool × Literal :=
  if k = .point then if l.point then (false, l) else (true, { l with point := true })
  else if l.point then (true, { l with fraction := l.fraction ++ digitText k })
  else (true, { l with whole := l.whole ++ digitText k })

def dropLast (s : String) : String := String.ofList s.toList.dropLast

def delete (l : Literal) : Literal :=
  if !l.fraction.isEmpty then { l with fraction := dropLast l.fraction }
  else if l.point then { l with point := false }
  else { l with whole := dropLast l.whole }

/-- The number in plain form: at least one digit before the point. -/
def plainText (l : Literal) : String :=
  (if l.whole.isEmpty then "0" else l.whole) ++ (if l.point then "." ++ l.fraction else "")

/-- The number as typed, without localization. -/
def typedText (l : Literal) : String :=
  l.whole ++ (if l.point then "." ++ l.fraction else "")

def display (files : Files) (l : Literal) : Except SettingsError String :=
  Settings.localize files l.typedText

/-- An integer of digits on both sides of a point, over a power of ten. -/
def ofDigits (whole fraction : String) : Except Text.NumeralError Rat := do
  let n ← Text.readInteger ((if whole.isEmpty then "0" else whole) ++ fraction)
  return mkRat n (powTen fraction.length)

def exact (l : Literal) : Except Text.NumeralError Rat := ofDigits l.whole l.fraction

/-- The real number that the plain form denotes. -/
def real (l : Literal) : Except Text.NumeralError Reals.Term :=
  Reals.Term.rational <$> Text.readRational l.plainText

def describe (files : Files) (l : Literal) : Except SettingsError String := do
  return "Literal(" ++ Text.quoted (← l.display files) ++ ")"

end Literal

end Reckoner
