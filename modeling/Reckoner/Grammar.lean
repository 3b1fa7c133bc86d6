import Reckoner.Token
/-!
The grammar of expressions, with the value of each phrase. What binds tightest comes first:

* an operand is a number, a collapsed token, a constant, a sum between parentheses or after a
  function's name, or a root sign with an operand, which may have a minus of its own;
* suffixes follow an operand, any number of them;
* a power has an operand with its suffixes as the base, and its exponent may have a minus, so that
  powers nest to the right;
* a minus in front stands outside the power;
* a product multiplies and divides from left to right, and factors side by side are multiplied;
* a sum adds and subtracts products from left to right.

Each rule reads a phrase off the front of a token list, as long as it can, and gives its value and
the tokens after it. Where a closing parenthesis should stand, none is needed. Rules nest to a
limited depth.
-/
namespace Reckoner.Grammar

open Reals

/-- What evaluation depends on besides the tokens: the unit of angles, the size bound of exact values,
and the functions that approximations are made with. -/
structure Mode where
  degrees : Bool
  limit : Int
  kernel : Kernel

/-- The rules of the grammar. -/
inductive Rule where
  | unary | suffix | factor | signedFactor | term | expr
  deriving DecidableEq, Repr

/-- A phrase's value and the tokens after it. -/
structure Parsed where
  value : Dual
  rest : List Token

/-- Why no phrase was read: the tokens from `rest` on do not continue one, or its value failed. -/
inductive Stop where
  | failure (cause : GrammarError) (rest : List Token)
  | abort (failure : Failure)

/-- A phrase, or why there is none, and the memory that reading it leaves. -/
abbrev Outcome := Recall Stop Parsed

def orAbort {α : Type} (x : Except Failure α) : Recall Stop α := .ofExcept (x.mapError .abort)

def orFail {α : Type} (x : Except ArithmeticError α) : Recall Stop α :=
  orAbort (x.mapError .arithmetic)

/-- Whether a factor can start here. A factor after another has no sign of its own. -/
def canStartFactor : List Token → Bool
  | [] => false
  | .operator k :: _ => !k.isBinary && !k.isSuffix && k ≠ .closing
  | _ => true

/-- Passes over a closing parenthesis, if there is one. -/
def skipClosing : List Token → List Token
  | .operator .closing :: rest => rest
  | ts => ts

/-- Passes over a minus, and tells whether there was one. -/
def skipMinus : List Token → Bool × List Token
  | .operator (.binary .minus) :: rest => (true, rest)
  | ts => (false, ts)

def literalValue (l : Literal) : Except Text.NumeralError Dual := do
  return ⟨← l.real, some (← l.exact)⟩

section

variable (mode : Mode) (depth : Nat) (sub : Rule → List Token → Outcome)

def unary : List Token → Outcome
  | [] => throw (.failure .unexpectedEnd [])
  | .literal l :: rest => do
    return ⟨← orAbort ((literalValue l).mapError .numeral), rest⟩
  | .collapsed _ value _ _ _ :: rest => return ⟨value, rest⟩
  | .operator k :: rest =>
    match k with
    | .constant .pi => return ⟨⟨.pi, none⟩, rest⟩
    | .constant .e => return ⟨⟨.e, none⟩, rest⟩
    | .root => do
      let (negative, rest) := skipMinus rest
      let arg ← sub .unary rest
      let value := if negative then arg.value.neg else arg.value
      return ⟨← orFail value.sqrt, arg.rest⟩
    | .opening => do
      let arg ← sub .expr rest
      return ⟨arg.value, skipClosing arg.rest⟩
    | .function f => do
      let arg ← sub .expr rest
      return ⟨← orFail (arg.value.apply mode.degrees f), skipClosing arg.rest⟩
    | _ => throw (.failure .unrecognizedToken (.operator k :: rest))

/-- Applies an operator written after its operand. -/
def suffixValue (op : SuffixOperator) (x : Dual) : Recall Failure Dual :=
  match op with
  | .factorial => (x.factorial mode.kernel).mapError .arithmetic
  | .square => return x.square mode.limit
  | .percent => return x.percent mode.limit

def applySuffix (op : SuffixOperator) (x : Dual) : Recall Stop Dual :=
  (suffixValue mode op x).mapError .abort

def suffixes (x : Dual) : List Token → Outcome
  | .operator (.suffix op) :: rest => do suffixes (← applySuffix mode op x) rest
  | rest => return ⟨x, rest⟩

def suffix (ts : List Token) : Outcome := do
  let base ← sub .unary ts
  suffixes mode base.value base.rest

def factor (ts : List Token) : Outcome := do
  let base ← sub .suffix ts
  match base.rest with
  | .operator (.binary .power) :: rest =>
    let exponent ← sub .signedFactor rest
    return ⟨← orAbort (base.value.power mode.limit depth exponent.value), exponent.rest⟩
  | _ => return base

def signedFactor (ts : List Token) : Outcome :=
  match skipMinus ts with
  | (true, rest) => do
    let x ← sub .factor rest
    return ⟨x.value.neg, x.rest⟩
  | (false, rest) => sub .factor rest

/-- Multiplies and divides by at most so many factors, as they come. -/
def products : Nat → Dual → List Token → Outcome
  | 0, x, ts => return ⟨x, ts⟩
  | _ + 1, x, [] => return ⟨x, []⟩
  | count + 1, x, t :: rest =>
    if t.isKey (.binary .times) then do
      let y ← sub .signedFactor rest
      products count (x.mul mode.limit y.value) y.rest
    else if t.isKey (.binary .over) then do
      let y ← sub .signedFactor rest
      products count (← orFail (x.div mode.limit y.value)) y.rest
    else if canStartFactor (t :: rest) then do
      let y ← sub .signedFactor (t :: rest)
      products count (x.mul mode.limit y.value) y.rest
    else return ⟨x, t :: rest⟩

def term (ts : List Token) : Outcome := do
  let x ← sub .signedFactor ts
  products mode sub ts.length x.value x.rest

/-- Adds and subtracts at most so many terms, as they come. -/
def sums : Nat → Dual → List Token → Outcome
  | 0, x, ts => return ⟨x, ts⟩
  | _ + 1, x, [] => return ⟨x, []⟩
  | count + 1, x, t :: rest =>
    if t.isKey (.binary .plus) then do
      let y ← sub .term rest
      sums count (x.add mode.limit y.value) y.rest
    else if t.isKey (.binary .minus) then do
      let y ← sub .term rest
      sums count (x.sub mode.limit y.value) y.rest
    else return ⟨x, t :: rest⟩

def expr (ts : List Token) : Outcome := do
  let x ← sub .term ts
  sums mode sub ts.length x.value x.rest

/-- A phrase of a rule, given how phrases inside it are read. -/
def phrase : Rule → List Token → Outcome
  | .unary => unary mode sub
  | .suffix => suffix mode sub
  | .factor => factor mode depth sub
  | .signedFactor => signedFactor sub
  | .term => term mode sub
  | .expr => expr mode sub

end

/-- A phrase of a rule in which rules nest to at most `depth`. -/
def parse (mode : Mode) : Nat → Rule → List Token → Outcome
  | 0, _, _ => throw (.abort .nesting)
  | depth + 1, rule, ts => phrase mode depth (parse mode depth) rule ts

/-- How deeply rules may nest. -/
def nestingLimit : Nat := 980

/-- The tokens that count in a context. -/
def range (span : Int) (ts : List Token) : List Token := ts.take span.toNat

/-- What reading the tokens that count comes to: all of them must be one expression. Nesting too deep to
be read is an arithmetic error here. -/
def settle (span : Int) (counted : List Token) : Except Stop Parsed → Except Failure Dual
  | .ok parsed =>
    if parsed.rest.isEmpty && (counted.length : Int) = span then .ok parsed.value
    else .error (.grammar .incompleteParse)
  | .error (.failure cause _) => .error (.grammar cause)
  | .error (.abort .nesting) => .error (.arithmetic .tooComplex)
  | .error (.abort failure) => .error failure

/-- The value of the tokens that count, where rules can nest to `depth`. -/
def evaluateWithin (mode : Mode) (depth : Nat) (span : Int) (ts : List Token) :
    Recall Failure Dual := fun m =>
  let counted := range span ts
  let (outcome, m) := parse mode depth .expr counted m
  (settle span counted outcome, m)

/-- The value of the tokens that count. -/
def evaluate (mode : Mode) : Int → List Token → Recall Failure Dual :=
  evaluateWithin mode nestingLimit

end Reckoner.Grammar
