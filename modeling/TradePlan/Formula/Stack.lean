import TradePlan.Formula.Names
import TradePlan.Formula.Postfix

/-!
# Running a postfix sequence

A postfix sequence is run on a stack: an operand is pushed, an operator or a call takes its
operands from the top and pushes its result, and one value has to be left.  What the values are is
up to an `Interpretation`; numbers give an evaluator, and expressions give a parser.
-/

namespace TradePlan

/-- What the items of a postfix sequence mean as values of a type.  A function is looked up before
its arguments are taken. -/
structure Interpretation (α : Type) where
  number : Float → α
  var : String → Except FormulaError α
  operator : Operator → α → α → Except FormulaError α
  call : String → Except FormulaError (List α → Except FormulaError α)

namespace Interpretation

variable {α : Type}

def step (meaning : Interpretation α) (stack : List α) : Postfix → Except FormulaError (List α)
  | .number value => .ok (meaning.number value :: stack)
  | .var name => do return (← meaning.var name) :: stack
  | .operator op =>
    match stack with
    | b :: a :: rest => do return (← meaning.operator op a b) :: rest
    | _ => .error (.malformed (.missingOperand op))
  | .call function argc => do
    let body ← meaning.call function
    let args := stack.take argc
    if args.length < argc then .error (.malformed (.missingArguments function argc))
    else return (← body args.reverse) :: stack.drop argc

/-- The value of a stack with nothing else on it. -/
def single : List α → Except FormulaError α
  | [value] => .ok value
  | [] => .error (.malformed .noValue)
  | stack => .error (.malformed (.valuesLeft stack.length))

/-- Runs a sequence on an empty stack. -/
def run (meaning : Interpretation α) (items : List Postfix) : Except FormulaError α := do
  single (← items.foldlM meaning.step [])

end Interpretation

/-- Numbers, with the values that bindings give to variables. -/
def numbers (policy : AliasPolicy) (bindings : Bindings) : Interpretation Float where
  number := id
  var := resolve policy bindings
  operator := Operator.apply
  call function :=
    match Builtin.ofName? function with
    | some f => .ok f.call
    | none => .error (.unknownFunction function)

def Postfix.evaluate (policy : AliasPolicy) (bindings : Bindings) (items : List Postfix) :
    Except FormulaError Float :=
  (numbers policy bindings).run items

end TradePlan
