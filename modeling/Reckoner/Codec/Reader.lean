import Reckoner.Codec.Writer
import Reckoner.Evaluation
/-!
Restoring expressions. A collapsed token is evaluated when it is first met, so only what has a value is
restored; later references to its index are the same token.
-/
namespace Reckoner.Codec

open Reals

/-- What a pass of reading knows: the bytes ahead, the collapsed tokens already read, the next name that
is free, and what is kept of the numbers evaluated. -/
structure Progress where
  stream : Stream
  known : Known Token
  names : Nat
  memory : Memory

/-- A computation that reads tokens and may fail. -/
abbrev Decoder := ExceptT Failure (StateM Progress)

def field {α : Type} (r : Reader α) : Decoder α := fun p =>
  match r p.stream with
  | (.ok value, stream) => (.ok value, { p with stream })
  | (.error e, stream) => (.error (.format e), { p with stream })

/-- Computes with the memory. -/
def recalling {α : Type} (x : Recall Failure α) : Decoder α := fun p =>
  let (result, memory) := x p.memory
  (result, { p with memory })

/-- How deeply collapsed tokens may nest in an expression that is read. -/
def readingLimit : Nat := 243

/-- How deeply rules may nest where a collapsed token is evaluated with room for `depth` more around
it: each that is being read takes the place of four rules. -/
def evaluationRoom (depth : Nat) : Nat := 4 * (depth + 1)

/-- Whether a text can be part of a number: digits of any kind. -/
def isDigits (s : String) : Bool := s.toList.all Text.isDigit

def readLiteral : Decoder Token := do
  let whole ← field readText
  let point ← field readBool
  let fraction ← field readText
  if isDigits whole && isDigits fraction then return .literal ⟨whole, point, fraction⟩
  else throw (.format .invalidNumber)

def readOperator : Decoder Token := do
  let number ← field readInt
  match Key.ofNumber? number with
  | some k => return .operator k
  | none => throw (.format (.unknownOperator number))

/-- The failure of reading a saved expression that cannot be evaluated: an error of the expression is one
of the data. -/
def savedFailure : Failure → Failure
  | .grammar cause => .format (.unevaluable cause.message)
  | .arithmetic cause => .format (.unevaluable cause.message)
  | e => e

/-- The value of a saved expression, where rules can nest to `depth`. -/
def savedValue (a : Arithmetic) (depth : Nat) (context : Context) (source : Expression) :
    Recall Failure Dual :=
  (Grammar.evaluateWithin (a.mode context.degrees) depth context.span source).mapError savedFailure

/-- A new collapsed token of a free name. Its value goes by that name unless it is known by one. -/
def newCollapsed (value : Dual) (source : Expression) (context : Context) (short : String) :
    Decoder Token := do
  let name := (← get).names
  modify fun p => { p with names := name + 1 }
  return .collapsed name (value.keptAs name) source context short

/-- Reads the fields of a collapsed token, given how to read the expression inside it. -/
def readCollapsed (a : Arithmetic) (room : Nat) (inner : Decoder Expression) : Decoder Token := do
  let index ← field readInt
  match (← get).known.find? index with
  | some token => return token
  | none =>
    let source ← inner
    let context : Context := ⟨← field readBool, source.length⟩
    let value ← recalling (savedValue a room context source)
    let token ← newCollapsed value source context (← field readText)
    modify fun p => { p with known := p.known.register index token }
    return token

/-- Reads a token, given how to read the expression inside a collapsed one. -/
def readToken (a : Arithmetic) (room : Nat) (inner : Decoder Expression) : Decoder Token := do
  let tag ← field readByte
  if tag = literalTag then readLiteral
  else if tag = operatorTag then readOperator
  else if tag = collapsedTag then readCollapsed a room inner
  else throw (.format (.badTag tag))

/-- Reads so many tokens after those already read, which are given in reverse. -/
def readTokens (one : Decoder Token) : Nat → List Token → Decoder Expression
  | 0, read => return read.reverse
  | count + 1, read => do
    let t ← one
    readTokens one count (t :: read)

/-- Reads an expression in which collapsed tokens nest to at most `depth`. -/
def readExpression (a : Arithmetic) : Nat → Decoder Expression
  | 0 => throw (.format .nestedTooDeeply)
  | depth + 1 => do
    let count ← field readInt
    if count < 0 then throw (.format .negativeCount)
    else readTokens (readToken a (evaluationRoom depth) (readExpression a depth)) count.toNat []

/-- Reads from the start of some bytes; the next free name and the memory come with the result. -/
def decode {α : Type} (d : Decoder α) (names : Nat) (memory : Memory) (data : List UInt8) :
    Except Failure α × Nat × Memory :=
  let (result, p) := d ⟨Stream.ofBytes data, Known.empty, names, memory⟩
  (result, p.names, p.memory)

/-- The expression at the start of some bytes. -/
def loads (a : Arithmetic) : Nat → Memory → List UInt8 → Except Failure Expression × Nat × Memory :=
  decode (readExpression a (readingLimit + 1))

/-- The unit of angles and the expression at the start of some bytes. -/
def loadsState (a : Arithmetic) :
    Nat → Memory → List UInt8 → Except Failure (Bool × Expression) × Nat × Memory :=
  decode do
    let degrees ← field readBool
    let e ← readExpression a (readingLimit + 1)
    return (degrees, e)

end Reckoner.Codec
