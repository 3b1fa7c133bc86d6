import Reckoner.Grammar
/-!
The grammar by positions. The same rules, over a whole token list of which the first `span` count: a rule
starts at a position, looks at one token at a time, and gives the position after its phrase. A look
behind the tokens that count finds nothing.
-/
namespace Reckoner.Grammar

open Reals

/-- The token at a position, if it counts. -/
def token? (span : Int) (ts : List Token) (i : Nat) : Option Token :=
  if span ≤ i then none else ts[i]?

/-- How many tokens count. -/
def bound (span : Int) (ts : List Token) : Nat := min span.toNat ts.length

/-- A phrase's value and the position after it. -/
structure Placed where
  value : Dual
  pos : Nat

/-- Why no phrase was read: what stands at `pos` does not continue one, or its value failed. -/
inductive Halt where
  | failure (cause : GrammarError) (pos : Nat)
  | abort (failure : Failure)

/-- A phrase, or why there is none, and the memory that reading it leaves. -/
abbrev Reading := Recall Halt Placed

def orHalt {α : Type} (x : Except Failure α) : Recall Halt α := .ofExcept (x.mapError .abort)

section

variable (mode : Mode) (span : Int) (ts : List Token) (depth : Nat) (sub : Rule → Nat → Reading)

/-- Whether the operator of a key stands at a position. -/
def isOperatorAt (i : Nat) (k : Key) : Bool := (token? span ts i).any (Token.isKey k)

/-- Whether a factor can start at a position. -/
def canStartFactorAt (i : Nat) : Bool :=
  match token? span ts i with
  | none => false
  | some (.operator k) => !k.isBinary && !k.isSuffix && k ≠ .closing
  | some _ => true

/-- Passes over a closing parenthesis, if there is one. -/
def skipClosingAt (i : Nat) : Nat := if isOperatorAt span ts i .closing then i + 1 else i

def unaryAt (i : Nat) : Reading :=
  match token? span ts i with
  | none => throw (.failure .unexpectedEnd i)
  | some (.literal l) => do
    return ⟨← orHalt ((literalValue l).mapError .numeral), i + 1⟩
  | some (.collapsed _ value _ _ _) => return ⟨value, i + 1⟩
  | some (.operator k) =>
    match k with
    | .constant .pi => return ⟨⟨.pi, none⟩, i + 1⟩
    | .constant .e => return ⟨⟨.e, none⟩, i + 1⟩
    | .root => do
      let negative := isOperatorAt span ts (i + 1) (.binary .minus)
      let arg ← sub .unary (if negative then i + 2 else i + 1)
      let value := if negative then arg.value.neg else arg.value
      return ⟨← orHalt (value.sqrt.mapError .arithmetic), arg.pos⟩
    | .opening => do
      let arg ← sub .expr (i + 1)
      return ⟨arg.value, skipClosingAt span ts arg.pos⟩
    | .function f => do
      let arg ← sub .expr (i + 1)
      let value ← orHalt ((arg.value.apply mode.degrees f).mapError .arithmetic)
      return ⟨value, skipClosingAt span ts arg.pos⟩
    | _ => throw (.failure .unrecognizedToken i)

/-- Applies the operators written after an operand, at most so many. -/
def suffixesAt : Nat → Dual → Nat → Reading
  | 0, x, i => return ⟨x, i⟩
  | count + 1, x, i =>
    match token? span ts i with
    | some (.operator (.suffix op)) => do
      suffixesAt count (← (suffixValue mode op x).mapError .abort) (i + 1)
    | _ => return ⟨x, i⟩

def suffixAt (i : Nat) : Reading := do
  let base ← sub .unary i
  suffixesAt mode span ts (bound span ts) base.value base.pos

def factorAt (i : Nat) : Reading := do
  let base ← sub .suffix i
  if isOperatorAt span ts base.pos (.binary .power) then
    let exponent ← sub .signedFactor (base.pos + 1)
    return ⟨← orHalt (base.value.power mode.limit depth exponent.value), exponent.pos⟩
  else return base

def signedFactorAt (i : Nat) : Reading :=
  if isOperatorAt span ts i (.binary .minus) then do
    let x ← sub .factor (i + 1)
    return ⟨x.value.neg, x.pos⟩
  else sub .factor i

/-- Multiplies and divides by at most so many factors, as they come. -/
def productsAt : Nat → Dual → Nat → Reading
  | 0, x, i => return ⟨x, i⟩
  | count + 1, x, i =>
    if isOperatorAt span ts i (.binary .times) then do
      let y ← sub .signedFactor (i + 1)
      productsAt count (x.mul mode.limit y.value) y.pos
    else if isOperatorAt span ts i (.binary .over) then do
      let y ← sub .signedFactor (i + 1)
      productsAt count (← orHalt ((x.div mode.limit y.value).mapError .arithmetic)) y.pos
    else if canStartFactorAt span ts i then do
      let y ← sub .signedFactor i
      productsAt count (x.mul mode.limit y.value) y.pos
    else return ⟨x, i⟩

def termAt (i : Nat) : Reading := do
  let x ← sub .signedFactor i
  productsAt mode span ts sub (bound span ts) x.value x.pos

/-- Adds and subtracts at most so many terms, as they come. -/
def sumsAt : Nat → Dual → Nat → Reading
  | 0, x, i => return ⟨x, i⟩
  | count + 1, x, i =>
    if isOperatorAt span ts i (.binary .plus) then do
      let y ← sub .term (i + 1)
      sumsAt count (x.add mode.limit y.value) y.pos
    else if isOperatorAt span ts i (.binary .minus) then do
      let y ← sub .term (i + 1)
      sumsAt count (x.sub mode.limit y.value) y.pos
    else return ⟨x, i⟩

def exprAt (i : Nat) : Reading := do
  let x ← sub .term i
  sumsAt mode span ts sub (bound span ts) x.value x.pos

/-- A phrase of a rule, given how phrases inside it are read. -/
def phraseAt : Rule → Nat → Reading
  | .unary => unaryAt mode span ts sub
  | .suffix => suffixAt mode span ts sub
  | .factor => factorAt mode span ts depth sub
  | .signedFactor => signedFactorAt span ts sub
  | .term => termAt mode span ts sub
  | .expr => exprAt mode span ts sub

end

/-- A phrase of a rule in which rules nest to at most `depth`, at a position. -/
def parseAt (mode : Mode) (span : Int) (ts : List Token) : Nat → Rule → Nat → Reading
  | 0, _, _ => throw (.abort .nesting)
  | depth + 1, rule, i => phraseAt mode span ts depth (parseAt mode span ts depth) rule i

end Reckoner.Grammar
