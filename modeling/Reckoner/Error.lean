import Reckoner.Text.Numeral
/-!
What can go wrong, by cause. A cause has a four-digit code, whose first digit is its category, and a
message; a `Report` is the form in which an error is shown, with a catalogue of standard messages.
-/
namespace Reckoner

/-- Why a token list is no expression. -/
inductive GrammarError where
  | unexpectedEnd
  | unrecognizedToken
  | incompleteParse
  deriving DecidableEq, Repr

/-- Why an expression has no value. -/
inductive ArithmeticError where
  | divisionByZero
  | factorialOfNonInteger
  | factorialOfNegative
  | factorialTooLarge
  | tooComplex
  | logarithmOfNonPositive
  | rootOfNegative
  | outsideUnitRange
  | tangentUndefined
  deriving DecidableEq, Repr

/-- Why an expression cannot be saved or restored. -/
inductive FormatError where
  | unwritable (reason : String)
  | unreadable (reason : String)
  | truncated
  | invalidText
  | invalidNumber
  | badTag (tag : Nat)
  | negativeCount
  | unevaluable (reason : String)
  | unknownOperator (number : Int)
  | textTooLong
  | nestedTooDeeply
  deriving DecidableEq, Repr

/-- Why the settings cannot be used as they are. -/
inductive SettingsError where
  /-- Values of a wrong shape, such as a number in place of a table. -/
  | wrongType
  /-- Values of the right shape and wrong content. -/
  | wrongValue
  /-- A description was asked of something that is no table. -/
  | notATable
  /-- Arrays and tables in a file nest too deeply. -/
  | tooDeep
  deriving DecidableEq, Repr

/-- Why a number of digits cannot be used. -/
inductive DigitError where
  | notANumber
  /-- A number in fractional form, where a whole one is needed. -/
  | notWhole
  /-- A number that is not defined. -/
  | undefined
  /-- More digits than could be written. -/
  | unbounded
  /-- More digits are to be left off than there are. -/
  | exhausted
  deriving DecidableEq, Repr

/-- Every way an operation of the calculator can fail. -/
inductive Failure where
  | grammar (cause : GrammarError)
  | arithmetic (cause : ArithmeticError)
  | format (cause : FormatError)
  | numeral (cause : Text.NumeralError)
  | settings (cause : SettingsError)
  | digits (cause : DigitError)
  /-- More nesting than the operation has room for. -/
  | nesting
  /-- A number that is no key. -/
  | noSuchKey
  /-- A key that is no function. -/
  | notAFunction
  /-- An integer outside the range of its field. -/
  | outOfRange
  /-- A byte outside 0 to 255. -/
  | notAByte
  /-- Text with half of a surrogate pair, which has no bytes. -/
  | notEncodable
  deriving DecidableEq, Repr

/-- The classes of reported errors. -/
inductive ErrorClass where
  | general | grammar | calculation | format
  deriving DecidableEq, Repr

/-- An error as it is shown. -/
structure Report where
  errorClass : ErrorClass
  message : String
  code : String
  equation : Option String
  deriving DecidableEq, Repr

namespace Report

/-- The code of an error that has no code of its own. -/
def generalCode : String := "9999"

/-- The standard message of a code. -/
def catalogue : List (String × String) :=
  [("2001", "Logarithm of a non-positive number."),
   ("2002", "Square root of a negative number."),
   ("2003", "Inverse trigonometric argument out of range."),
   ("2004", "Tangent undefined."),
   ("3003", "Division by Zero"),
   ("3011", "Unrecognized token in expression."),
   ("3012", "Unexpected expression end."),
   ("3013", "Failed to parse full expression."),
   ("3026", "Number too big."),
   ("3027", "Expression too complex."),
   ("3030", "Factorial of non-integer."),
   ("3031", "Factorial of negative number."),
   ("6000", "Bad save file format."),
   ("6001", "Truncated save data."),
   ("6002", "Saved subexpression could not be evaluated."),
   ("6003", "Unknown operator id in save data."),
   ("6004", "String too long to save."),
   ("6005", "Saved expression nested too deeply."),
   (generalCode, "Unexpected Error: ")]

/-- The standard message of a code; an unknown code has the general one. -/
def standardMessage (code : String) : String :=
  ((catalogue.lookup code).orElse fun _ => catalogue.lookup generalCode).getD ""

/-- The category that a code's first digit names. -/
def category (r : Report) : String :=
  match r.code.toList.head? with
  | some '2' => "Scientific Calculation Error"
  | some '3' => "Calculator Error"
  | some '6' => "Save Format Error"
  | _ => "Runtime Error"

/-- A report with the standard message where none is given. -/
def make (errorClass : ErrorClass) (message : Option String) (code : String)
    (equation : Option String) : Report :=
  ⟨errorClass, message.getD (standardMessage code), code, equation⟩

end Report

def GrammarError.code : GrammarError → String
  | unexpectedEnd => "3012"
  | unrecognizedToken => "3011"
  | incompleteParse => "3013"

def GrammarError.message : GrammarError → String
  | unexpectedEnd => "Unexpected expression end"
  | unrecognizedToken => "Unrecognized token in expression"
  | incompleteParse => "Failed to parse full expression"

def ArithmeticError.code : ArithmeticError → String
  | divisionByZero => "3003"
  | factorialOfNonInteger => "3030"
  | factorialOfNegative => "3031"
  | factorialTooLarge => "3026"
  | tooComplex => "3027"
  | logarithmOfNonPositive => "2001"
  | rootOfNegative => "2002"
  | outsideUnitRange => "2003"
  | tangentUndefined => "2004"

/-- The message of an arithmetic error; two of them use the standard message of their code. -/
def ArithmeticError.message : ArithmeticError → String
  | divisionByZero => "Division by zero"
  | factorialOfNonInteger => "Factorial of non-integer"
  | factorialOfNegative => "Factorial of negative number"
  | factorialTooLarge => "Factorial argument too large"
  | tooComplex => Report.standardMessage "3027"
  | logarithmOfNonPositive => "Logarithm of a non-positive number"
  | rootOfNegative => "Square root of a negative number"
  | outsideUnitRange => Report.standardMessage "2003"
  | tangentUndefined => "Tangent undefined"

def FormatError.code : FormatError → String
  | unwritable _ | invalidText | invalidNumber | badTag _ | negativeCount => "6000"
  | unreadable _ | truncated => "6001"
  | unevaluable _ => "6002"
  | unknownOperator _ => "6003"
  | textTooLong => "6004"
  | nestedTooDeeply => "6005"

def FormatError.message : FormatError → String
  | unwritable reason => "Could not write save data: " ++ reason
  | unreadable reason => "Could not read save data: " ++ reason
  | truncated => Report.standardMessage "6001"
  | invalidText => "Invalid text in save data"
  | invalidNumber => "Invalid number in save data"
  | badTag tag => "Bad save file format: tag " ++ toString tag
  | negativeCount => "Negative token count"
  | unevaluable reason => "Saved subexpression could not be evaluated: " ++ reason
  | unknownOperator number => "Unknown operator id " ++ toString number
  | textTooLong => Report.standardMessage "6004"
  | nestedTooDeeply => Report.standardMessage "6005"

/-- The report of a failure of the calculator's own, if it is one. -/
def Failure.report? : Failure → Option Report
  | grammar cause => some ⟨.grammar, cause.message, cause.code, none⟩
  | arithmetic cause => some ⟨.calculation, cause.message, cause.code, none⟩
  | format cause => some ⟨.format, cause.message, cause.code, none⟩
  | _ => none

end Reckoner
