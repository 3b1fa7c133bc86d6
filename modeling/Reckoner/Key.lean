/-!
Keys of the calculator's keypad. A key is a digit, the decimal point, an operator, a parenthesis, a
function with its opening parenthesis, or a constant. Its number is what a saved expression holds
for it, and `ofNumber?_number` says that numbers name keys uniquely.
-/
namespace Reckoner

/-- Operators written between two operands. -/
inductive BinaryOperator where
  | plus | minus | times | over | power
  deriving DecidableEq, Repr

/-- Operators written after their operand. -/
inductive SuffixOperator where
  | factorial | square | percent
  deriving DecidableEq, Repr

/-- Named functions; each opens a parenthesis of its own. -/
inductive FunctionName where
  | sin | cos | tan | arcsin | arccos | arctan | ln | log | exp
  deriving DecidableEq, Repr

/-- Constants. -/
inductive Constant where
  | pi | e
  deriving DecidableEq, Repr

/-- What can be pressed. -/
inductive Key where
  | digit (d : Fin 10)
  | point
  | binary (op : BinaryOperator)
  | root
  | suffix (op : SuffixOperator)
  | opening
  | closing
  | function (f : FunctionName)
  | constant (c : Constant)
  deriving DecidableEq, Repr

namespace Key

def number : Key → Nat
  | digit d => d.val
  | point => 10
  | binary .plus => 20
  | binary .minus => 21
  | binary .times => 22
  | binary .over => 23
  | binary .power => 24
  | root => 30
  | suffix .factorial => 31
  | suffix .square => 32
  | suffix .percent => 33
  | opening => 40
  | closing => 41
  | function .sin => 50
  | function .cos => 51
  | function .tan => 52
  | function .arcsin => 53
  | function .arccos => 54
  | function .arctan => 55
  | function .ln => 56
  | function .log => 57
  | function .exp => 58
  | constant .pi => 70
  | constant .e => 71

/-- Every key, by ascending number. -/
def all : List Key :=
  (List.finRange 10).map digit ++
  [point, binary .plus, binary .minus, binary .times, binary .over, binary .power, root,
   suffix .factorial, suffix .square, suffix .percent, opening, closing,
   function .sin, function .cos, function .tan, function .arcsin, function .arccos,
   function .arctan, function .ln, function .log, function .exp, constant .pi, constant .e]

def ofNumber? (n : Int) : Option Key :=
  all.find? fun k => (k.number : Int) = n

theorem ofNumber?_number (k : Key) : ofNumber? k.number = some k := by
  cases k with
  | digit d => revert d; decide
  | binary op => cases op <;> decide
  | suffix op => cases op <;> decide
  | function f => cases f <;> decide
  | constant c => cases c <;> decide
  | _ => decide

theorem number_of_ofNumber? {n : Int} {k : Key} (h : ofNumber? n = some k) : (k.number : Int) = n := by
  simpa using List.find?_some h

def name : Key → String
  | digit d => "DIGIT_" ++ toString d.val
  | point => "DEC_POINT"
  | binary .plus => "OP_ADD"
  | binary .minus => "OP_SUB"
  | binary .times => "OP_MUL"
  | binary .over => "OP_DIV"
  | binary .power => "OP_POW"
  | root => "OP_SQRT"
  | suffix .factorial => "OP_FACT"
  | suffix .square => "OP_SQR"
  | suffix .percent => "OP_PCT"
  | opening => "LPAREN"
  | closing => "RPAREN"
  | function .sin => "FUN_SIN"
  | function .cos => "FUN_COS"
  | function .tan => "FUN_TAN"
  | function .arcsin => "FUN_ARCSIN"
  | function .arccos => "FUN_ARCCOS"
  | function .arctan => "FUN_ARCTAN"
  | function .ln => "FUN_LN"
  | function .log => "FUN_LOG"
  | function .exp => "FUN_EXP"
  | constant .pi => "CONST_PI"
  | constant .e => "CONST_E"

/-- How the key looks in a formula, unless the captions file says otherwise. -/
def glyph : Key → String
  | digit d => toString d.val
  | point => "."
  | binary .plus => "+"
  | binary .minus => "−"
  | binary .times => "×"
  | binary .over => "÷"
  | binary .power => "^"
  | root => "√"
  | suffix .factorial => "!"
  | suffix .square => "²"
  | suffix .percent => "%"
  | opening => "("
  | closing => ")"
  | function .sin => "sin("
  | function .cos => "cos("
  | function .tan => "tan("
  | function .arcsin => "arcsin("
  | function .arccos => "arccos("
  | function .arctan => "arctan("
  | function .ln => "ln("
  | function .log => "log("
  | function .exp => "exp("
  | constant .pi => "π"
  | constant .e => "e"

def digit? : Key → Option (Fin 10)
  | digit d => some d
  | _ => none

/-- Whether the key is an operator between two operands. -/
def isBinary : Key → Bool
  | binary _ => true
  | _ => false

/-- Whether the key is an operator after its operand. -/
def isSuffix : Key → Bool
  | suffix _ => true
  | _ => false

def isFunction : Key → Bool
  | function _ => true
  | _ => false

end Key

end Reckoner
