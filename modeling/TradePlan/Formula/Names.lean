import TradePlan.Formula.Arithmetic
import TradePlan.Formula.Bindings
import TradePlan.Formula.Token
import TradePlan.Formula.Vocabulary

/-!
# Names in a formula

Before a formula is evaluated, each of its names is checked.  In front of an opening parenthesis
only the name of a function may stand.  Every other name has to be a variable that has a value; the
name of a function that is not called is left to the evaluation.
-/

namespace TradePlan

/-- What is wrong with a name; `called` says that an opening parenthesis follows it. -/
def nameFault? (policy : AliasPolicy) (bindings : Bindings) (name : String) (called : Bool) :
    Option FormulaError :=
  if Builtin.isName name then none
  else if called then some (.unknownFunction name)
  else if !isVariable name then some (.unknownIdentifier name)
  else if !bindings.contains (policy.canonical name) then some (.unboundVariable name)
  else none

/-- Reports the first name that is wrong. -/
def checkNames (policy : AliasPolicy) (bindings : Bindings) :
    List Token → Except FormulaError Unit
  | [] => .ok ()
  | .identifier name :: rest =>
    match nameFault? policy bindings name (rest.head? == some .leftParen) with
    | some fault => .error fault
    | none => checkNames policy bindings rest
  | _ :: rest => checkNames policy bindings rest

/-- The value of a variable.  It has to be finite. -/
def resolve (policy : AliasPolicy) (bindings : Bindings) (name : String) :
    Except FormulaError Float :=
  if !isVariable name then .error (.unknownIdentifier name)
  else
    match bindings.get? (policy.canonical name) with
    | none => .error (.unboundVariable name)
    | some value => requireFinite value (.boundValue name value)

end TradePlan
