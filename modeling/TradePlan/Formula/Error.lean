import TradePlan.Decimal.Layout
import TradePlan.Formula.Operator

/-!
# What can be wrong with a formula

Each error is a cause; `FormulaError.message` is its wording, and `FormulaError.context` puts the
formula and a caret above it.
-/

namespace TradePlan

/-- Why an operation has no finite value. -/
inductive DomainFault where
  | zeroDivisor (dividend : Float) (op : Operator)
  | operation (left : Float) (op : Operator) (right : Float)
  | call (function : String) (args : List Float)
  | boundValue (name : String) (value : Float)
  | described (reason : String)
deriving DecidableEq

/-- Why a sequence of operands and operators is no expression. -/
inductive ShapeFault where
  | commaOutsideCall
  | missingValue (function : String)
  | surplusValues (function : String) (count : Nat)
  | missingOperand (op : Operator)
  | missingArguments (function : String) (count : Nat)
  | noValue
  | valuesLeft (count : Nat)
  | described (reason : String)
deriving DecidableEq

/-- What is wrong with a formula.  Positions count bytes of the text in UTF-8. -/
inductive FormulaError where
  | empty
  | illegalCharacter (found : Char) (position : Nat)
  | badNumber (text : String) (position : Nat)
  | unknownIdentifier (name : String)
  | unboundVariable (name : String)
  | unknownFunction (name : String)
  | arity (function : String) (expected : String) (found : Nat)
  | domain (fault : DomainFault)
  | malformed (fault : ShapeFault)
deriving DecidableEq

/-- Numbers in an argument list: a mark on whole numbers, and a power of ten outside
`0.0001 … 10 ^ 16`. -/
def argumentLayout : Decimal.Layout where
  wholeMark := true
  window := some (-3, 16)
  tie := .up

def DomainFault.reason : DomainFault → String
  | zeroDivisor a op => Decimal.plain a ++ " " ++ op.symbol.toString ++ " 0"
  | operation a op b =>
    Decimal.plain a ++ " " ++ op.symbol.toString ++ " " ++ Decimal.plain b ++ " is not finite"
  | call function args =>
    function ++ "([" ++ ", ".intercalate (args.map argumentLayout.text) ++ "]) is not finite"
  | boundValue name value =>
    "variable '" ++ name ++ "' is not finite (" ++ Decimal.plain value ++ ")"
  | described reason => reason

def ShapeFault.reason : ShapeFault → String
  | commaOutsideCall => "',' outside of a function call"
  | missingValue function => "missing value in argument to '" ++ function ++ "'"
  | surplusValues function count =>
    "argument to '" ++ function ++ "' has " ++ toString count ++ " values, missing operator or ','"
  | missingOperand op => "missing operand for '" ++ op.symbol.toString ++ "'"
  | missingArguments function count =>
    "missing arguments for '" ++ function ++ "/" ++ toString count ++ "'"
  | noValue => "no value produced"
  | valuesLeft count => toString count ++ " values left on the stack"
  | described reason => reason

namespace FormulaError

def message : FormulaError → String
  | empty => "formula is empty"
  | illegalCharacter found position =>
    "illegal character '" ++ found.toString ++ "' at position " ++ toString position
  | badNumber text position => "malformed number '" ++ text ++ "' at position " ++ toString position
  | unknownIdentifier name => "identifier '" ++ name ++ "' is not allowed"
  | unboundVariable name => "variable '" ++ name ++ "' not provided"
  | unknownFunction name => "function '" ++ name ++ "' is not allowed"
  | arity function expected found =>
    function ++ " expects " ++ expected ++ " argument(s), got " ++ toString found
  | domain fault => "numeric domain error: " ++ fault.reason
  | malformed fault => "malformed expression: " ++ fault.reason

/-- The byte at which the offending text starts, if the error is about a place in the text. -/
def position : FormulaError → Option Nat
  | illegalCharacter _ position => some position
  | badNumber _ position => some position
  | _ => none

/-- The formula, a caret under the offending place if there is one, and the message. -/
def context (error : FormulaError) (formula : String) : String :=
  match error.position with
  | some position =>
    formula ++ "\n" ++ String.ofList (List.replicate position ' ') ++ "^\n" ++ error.message
  | none => formula ++ "\n" ++ error.message

end FormulaError

end TradePlan
