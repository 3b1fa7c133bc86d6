import Reckoner.Codec.Sharing
import Reckoner.Codec.Stream
import Reckoner.Token
/-!
Saving expressions. An expression is the number of its tokens and the tokens; a token is a tag and its
fields. A collapsed token begins with an index. Where its value is first written, its expression,
unit of angles and short text follow; every later token with the same value is the index alone.
-/
namespace Reckoner.Codec

def literalTag : Nat := 0

def operatorTag : Nat := 1

def collapsedTag : Nat := 2

/-- By what a collapsed token's value is recognised. -/
def valueIdentity (name : Nat) (value : Dual) : Reals.Identity :=
  value.real.identity?.getD (.name name)

/-- A computation that writes, remembering the values written. -/
abbrev Writer := ExceptT Failure (StateM (Written Reals.Identity))

/-- How deeply collapsed tokens may nest in an expression that is written. -/
def writingLimit : Nat := 490

/-- A field that may not be writable. -/
def liftExcept (x : Except Failure (List UInt8)) : Writer (List UInt8) :=
  match x with
  | .ok data => return data
  | .error e => throw e

/-- Writes a token, given how to write the expression inside a collapsed one. -/
def writeToken (inner : Expression → Writer (List UInt8)) : Token → Writer (List UInt8)
  | .literal l => do
    let whole ← liftExcept (textField l.whole)
    let fraction ← liftExcept (textField l.fraction)
    return bytesOf 1 literalTag ++ whole ++ boolField l.point ++ fraction
  | .operator k => do
    let number ← liftExcept (intField k.number)
    return bytesOf 1 operatorTag ++ number
  | .collapsed name value source context short => do
    let identity := valueIdentity name value
    match (← get).index? identity with
    | some index => do
      let index ← liftExcept (intField index)
      return bytesOf 1 collapsedTag ++ index
    | none => do
      modify fun w => w.register identity
      let index ← liftExcept (intField (← get).count)
      let source ← inner source
      let short ← liftExcept (textField short)
      return bytesOf 1 collapsedTag ++ index ++ source ++ boolField context.degrees ++ short

def writeTokens (one : Token → Writer (List UInt8)) : List Token → Writer (List UInt8)
  | [] => return []
  | t :: ts => do
    let data ← one t
    return data ++ (← writeTokens one ts)

/-- Writes an expression in which collapsed tokens nest to at most `depth`. -/
def writeExpression : Nat → Expression → Writer (List UInt8)
  | 0, _ => throw .nesting
  | depth + 1, e => do
    let count ← liftExcept (intField e.length)
    return count ++ (← writeTokens (writeToken (writeExpression depth)) e)

/-- Writes from the start, with nothing numbered yet. -/
def encode (x : Writer (List UInt8)) : Except Failure (List UInt8) := (x Written.empty).1

def dumps (e : Expression) : Except Failure (List UInt8) := encode (writeExpression writingLimit e)

/-- The bytes of an expression and the unit of angles in front of them. -/
def dumpsState (degrees : Bool) (e : Expression) : Except Failure (List UInt8) := do
  return boolField degrees ++ (← dumps e)

end Reckoner.Codec
