import Reckoner.Lexicon
import Reckoner.Token
/-!
Editing an expression. Keys are added at its end, where one that clearly cannot stand there is
refused, and taken back from its end one at a time.
-/
namespace Reckoner.Expression

/-- Whether the last token is an operator that needs another operand. -/
def endsWithBinary (e : Expression) : Bool :=
  match e.getLast? with
  | some (.operator k) => k.isBinary
  | _ => false

/-- Whether the last token is the operator of a key. -/
def endsWithKey (e : Expression) (k : Key) : Bool :=
  match e.getLast? with
  | some t => t.isKey k
  | none => false

/-- Whether a number cannot follow a token directly. -/
def closesOperand : Token → Bool
  | .operator (.constant _) | .operator (.suffix .factorial) | .operator .closing => true
  | .operator _ => false
  | _ => true

/-- Whether a binary operator cannot stand at the end: at the start only a minus may, and after another
binary operator only a minus that does not follow a minus. -/
def refusesBinary (e : Expression) (op : BinaryOperator) : Bool :=
  (e.isEmpty && op ≠ .minus) ||
    (e.endsWithBinary && (op ≠ .minus || e.endsWithKey (.binary .minus)))

/-- Adds a digit or a point: to the number at the end, or as a new number where one can follow. -/
def addToNumber (e : Expression) (k : Key) : Bool × Expression :=
  match e.getLast? with
  | some (.literal l) =>
    let (taken, l) := l.type k
    (taken, e.dropLast ++ [.literal l])
  | some t =>
    if closesOperand t then (false, e) else (true, e ++ [.literal (Literal.empty.type k).2])
  | none => (true, e ++ [.literal (Literal.empty.type k).2])

/-- Adds a key press, and tells whether it was taken. -/
def add (e : Expression) (k : Key) : Bool × Expression :=
  match k with
  | .digit _ | .point => e.addToNumber k
  | .binary op => if e.refusesBinary op then (false, e) else (true, e ++ [.operator k])
  | _ => (true, e ++ [.operator k])

def delete (e : Expression) : Expression :=
  match e.getLast? with
  | some (.literal l) =>
    if l.delete.isEmpty then e.dropLast else e.dropLast ++ [.literal l.delete]
  | _ => e.dropLast

/-- Joins another expression to the end. Two operands that would touch are multiplied. -/
def join (e other : Expression) : Expression :=
  match e.getLast?, other.head? with
  | some last, some first =>
    if !first.isOperator && !last.isOperator then e ++ .operator (.binary .times) :: other
    else e ++ other
  | _, _ => e ++ other

/-- Whether the expression is a single number being typed. -/
def isConstant : Expression → Bool
  | [.literal _] => true
  | _ => false

/-- Whether an expression can end with a token. -/
def canEnd : Token → Bool
  | .operator (.suffix _) | .operator (.constant _) => true
  | .operator _ => false
  | _ => true

/-- The expression without the operators at its end that cannot end one. -/
def complete (e : Expression) : Expression :=
  (e.reverse.dropWhile fun t => !canEnd t).reverse

def trailingStart (e : Expression) : Nat := e.complete.length

def hasTrailing (e : Expression) : Bool := e.trailingStart ≠ e.length

/-- Whether there is more to the expression than a signed number. -/
def isInteresting (e : Expression) : Bool :=
  let body :=
    match e.complete with
    | .operator (.binary .minus) :: rest => rest
    | body => body
  body.any fun
    | .literal _ => false
    | _ => true

/-- The expression as a single collapsed token of a new name. The value must be the expression's in the
mode. -/
def abbreviate (e : Expression) (name : Nat) (value : Dual) (degrees : Bool) (short : String) :
    Expression :=
  [.collapsed name (value.keptAs name) e ⟨degrees, e.length⟩ short]

/-- Feeds typed text as key presses, skipping blanks. What cannot be converted, from the first character
that is unknown or refused, is left over. -/
def type (e : Expression) (text : List Char) : Expression × List Char :=
  feed text.length e text
where
  /-- Feeds at most so many words. -/
  feed : Nat → Expression → List Char → Expression × List Char
    | _, e, [] => (e, [])
    | 0, e, text => (e, text)
    | words + 1, e, c :: text =>
      if Text.isBlank c then feed words e text
      else
        match Lexicon.name? (c :: text) with
        | some (k, length) =>
          match e.add k with
          | (false, e) => (e, c :: text)
          | (true, e) =>
            -- the name of the root opens a parenthesis of its own
            let e := if k = .root then (e.add .opening).2 else e
            feed words e ((c :: text).drop length)
        | none =>
          match Lexicon.charKey? c with
          | none => (e, c :: text)
          | some k =>
            match e.add k with
            | (false, e) => (e, c :: text)
            | (true, e) => feed words e text

end Reckoner.Expression
