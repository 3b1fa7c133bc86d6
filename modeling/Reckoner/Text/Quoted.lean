import Reckoner.Text.Printable
import Reckoner.Text.Surrogate
/-!
Quoted text for diagnostics. Single quotes enclose it unless it holds a single quote and no double
quote; what has no visible form is written by its code point.
-/
namespace Reckoner.Text

/-- A value in lower-case hexadecimal, padded with zeros to `width`. -/
def hex (width value : Nat) : String :=
  let digits := Nat.toDigits 16 value
  String.ofList (List.replicate (width - digits.length) '0' ++ digits)

def quotedChar (quote c : Char) : String :=
  if c = quote || c = '\\' then String.ofList ['\\', c]
  else if c = '\n' then "\\n"
  else if c = '\r' then "\\r"
  else if c = '\t' then "\\t"
  else if isPrintable c then c.toString
  else if c.toNat < 0x100 then "\\x" ++ hex 2 c.toNat
  else if c.toNat < 0x10000 then "\\u" ++ hex 4 c.toNat
  else
    match surrogate? c with
    | some unit => "\\u" ++ hex 4 unit
    | none => "\\U" ++ hex 8 c.toNat

def quoted (s : String) : String :=
  let quote := if s.contains '\'' && !s.contains '"' then '"' else '\''
  quote.toString ++ String.join (s.toList.map (quotedChar quote)) ++ quote.toString

end Reckoner.Text
