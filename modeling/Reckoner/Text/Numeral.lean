import Reckoner.Power
import Reckoner.Text.Blank
import Reckoner.Text.Digit
/-!
Reading numerals. An integer is a signed run of decimal digits of any script, in which single
underscores may separate digits; a rational is an integer over an integer, or a decimal with an
optional exponent. A run of more than `digitLimit` digits is refused.
-/
namespace Reckoner.Text

/-- The longest digit run that is converted, in either direction. -/
def digitLimit : Nat := 4300

/-- Why a text is not a numeral. -/
inductive NumeralError where
  | malformed
  | tooManyDigits
  | zeroDenominator
  deriving DecidableEq, Repr

/-- A run of digits: its value, the number of its digits, and what follows it. -/
structure DigitRun where
  value : Nat
  count : Nat
  rest : List Char
  deriving DecidableEq

/-- Reads the longest run of digits, continuing one of `count` digits worth `value`. An underscore
belongs to the run only between two digits. -/
def digitRun (value count : Nat) : List Char → DigitRun
  | [] => ⟨value, count, []⟩
  | c :: cs =>
    match decimalValue? c with
    | some d => digitRun (10 * value + d) (count + 1) cs
    | none =>
      match c, cs with
      | '_', c' :: cs' =>
        match decimalValue? c' with
        | some d =>
          if count = 0 then ⟨value, count, c :: cs⟩
          else digitRun (10 * value + d) (count + 1) cs'
        | none => ⟨value, count, c :: cs⟩
      | _, _ => ⟨value, count, c :: cs⟩

/-- An optional sign: whether it is a minus, and what follows. -/
def signed : List Char → Bool × List Char
  | '-' :: cs => (true, cs)
  | '+' :: cs => (false, cs)
  | cs => (false, cs)

/-- A run that must be there and must be short enough to convert. -/
def DigitRun.checked (run : DigitRun) : Except NumeralError DigitRun :=
  if run.count = 0 then .error .malformed
  else if digitLimit < run.count then .error .tooManyDigits
  else .ok run

/-- Gives a value its sign. -/
def withSign (negative : Bool) (n : Nat) : Int :=
  if negative then -(n : Int) else n

/-- Blank characters that may surround an integer: the information separators may not. -/
def isIntegerBlank (c : Char) : Bool :=
  isBlank c && !(0x1c ≤ c.toNat && c.toNat ≤ 0x1f)

def readInteger (s : String) : Except NumeralError Int := do
  let (negative, cs) := signed (trim isIntegerBlank s.toList)
  let run ← (digitRun 0 0 cs).checked
  if run.rest.isEmpty then return withSign negative run.value else .error .malformed

/-- Reads the exponent part of a decimal: nothing, or `e` and an integer. -/
def exponentPart : List Char → Except NumeralError Int
  | [] => .ok 0
  | c :: cs =>
    if c = 'e' || c = 'E' then do
      let (negative, cs) := signed cs
      let run ← (digitRun 0 0 cs).checked
      if run.rest.isEmpty then return withSign negative run.value else .error .malformed
    else .error .malformed

/-- `n` scaled by a power of ten. -/
def scaled (n : Int) (exponent : Int) : Rat :=
  if 0 ≤ exponent then ((n * powTen exponent.toNat : Int) : Rat)
  else mkRat n (powTen exponent.natAbs)

/-- Reads a rational: a fraction of two digit runs, or a decimal. -/
def readRational (s : String) : Except NumeralError Rat := do
  let (negative, cs) := signed (trim isBlank s.toList)
  let whole := digitRun 0 0 cs
  match whole.rest with
  | '/' :: cs =>
    let numerator ← whole.checked
    let denominator ← (digitRun 0 0 cs).checked
    if !denominator.rest.isEmpty then .error .malformed
    else if denominator.value = 0 then .error .zeroDenominator
    else return mkRat (withSign negative numerator.value) denominator.value
  | '.' :: cs =>
    let fraction := digitRun 0 0 cs
    if whole.count = 0 && fraction.count = 0 then .error .malformed
    else if digitLimit < whole.count || digitLimit < fraction.count then .error .tooManyDigits
    else
      let exponent ← exponentPart fraction.rest
      let digits := whole.value * powTen fraction.count + fraction.value
      return scaled (withSign negative digits) (exponent - fraction.count)
  | cs =>
    let whole ← whole.checked
    let exponent ← exponentPart cs
    return scaled (withSign negative whole.value) exponent

/-- An integer in decimal, unless it has more than `digitLimit` digits. -/
def integerText (n : Int) : Except NumeralError String :=
  let digits := toString n.natAbs
  if digitLimit < digits.length then .error .tooManyDigits
  else .ok (if n < 0 then "-" ++ digits else digits)

end Reckoner.Text
