import Reckoner.Literal
/-!
Tokens of an expression. A collapsed token stands for an expression that has been evaluated; it keeps
the value and the expression with its mode. Copies of a collapsed token are the same token, told by
their name.
-/
namespace Reckoner

/-- How an expression is evaluated: the unit of angles, and how many of its tokens count. -/
structure Context where
  degrees : Bool
  span : Int
  deriving DecidableEq, Repr

/-- An element of an expression. -/
inductive Token where
  | literal (l : Literal)
  | operator (k : Key)
  /-- A result: the name of the token, its value, the expression and context it came from, and a short
  text for the value. -/
  | collapsed (name : Nat) (value : Dual) (source : List Token) (context : Context)
      (short : String)
  deriving Repr

/-- Tokens in the order they are read. -/
abbrev Expression := List Token

namespace Context

def describe (c : Context) : String :=
  "EvalContext(degree_mode=" ++ (if c.degrees then "True" else "False") ++
    ", prefix_length=" ++ toString c.span ++ ")"

end Context

namespace Token

def isOperator : Token → Bool
  | operator _ => true
  | _ => false

/-- Whether the token is the operator of a key. -/
def isKey (k : Key) : Token → Bool
  | operator k' => k' = k
  | _ => false

/-- The token as shown. The captions file may hold something other than text for an operator. -/
def caption (files : Files) : Token → Except SettingsError Json
  | literal l => Json.text <$> l.display files
  | operator k => Settings.caption files k
  | collapsed _ _ _ _ short => Json.text <$> Settings.localize files short

def describeOperator (k : Key) : String := "Operator(" ++ k.name ++ ")"

def describe (files : Files) : Token → Except SettingsError String
  | literal l => l.describe files
  | operator k => .ok (describeOperator k)
  | collapsed _ _ _ _ short => .ok ("PreEvaluated(" ++ Text.quoted short ++ ")")

end Token

namespace Expression

/-- The tokens' captions, one after the other. All of them must be text. -/
def display (files : Files) (e : Expression) : Except SettingsError String := do
  let captions ← e.mapM (Token.caption files)
  return String.join (← captions.mapM fun
    | .text s => .ok s
    | _ => .error .wrongType)

def describe (files : Files) (e : Expression) : Except SettingsError String := do
  return "Expression([" ++ ", ".intercalate (← e.mapM (Token.describe files)) ++ "])"

end Expression

end Reckoner
