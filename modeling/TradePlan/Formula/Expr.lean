import TradePlan.Formula.Stack

/-!
# Expressions

The tree of a formula.  Its variables stay names until it is evaluated, and its text is fully
parenthesised, so that reading the text gives the tree back.
-/

namespace TradePlan

inductive Expr where
  | number (value : Float)
  | var (name : String)
  | call (function : String) (args : List Expr)
  | binary (op : Operator) (left right : Expr)

namespace Expr

/-! ## From postfix order -/

/-- Trees as the values of a postfix sequence. -/
def trees : Interpretation Expr where
  number := .number
  var name := .ok (.var name)
  operator op left right := .ok (.binary op left right)
  call function := .ok fun args => .ok (.call function args)

def ofPostfix (items : List Postfix) : Except FormulaError Expr := trees.run items

/-! ## Evaluation -/

mutual

/-- The value of an expression, with its operands evaluated from the left. -/
def evaluate (policy : AliasPolicy) (bindings : Bindings) : Expr → Except FormulaError Float
  | .number value => .ok value
  | .var name => resolve policy bindings name
  | .call function args =>
    match Builtin.ofName? function with
    | none => .error (.unknownFunction function)
    | some f => do f.call (← evaluateAll policy bindings args)
  | .binary op left right => do
    let a ← left.evaluate policy bindings
    let b ← right.evaluate policy bindings
    op.apply a b

def evaluateAll (policy : AliasPolicy) (bindings : Bindings) :
    List Expr → Except FormulaError (List Float)
  | [] => .ok []
  | arg :: args => do
    let value ← arg.evaluate policy bindings
    let values ← evaluateAll policy bindings args
    return value :: values

end

/-! ## Variables -/

mutual

/-- Every mention of a variable, in the order of the text. -/
def mentions : Expr → List String
  | .number _ => []
  | .var name => [name]
  | .call _ args => mentionsAll args
  | .binary _ left right => left.mentions ++ right.mentions

def mentionsAll : List Expr → List String
  | [] => []
  | arg :: args => arg.mentions ++ mentionsAll args

end

/-- The variables of an expression, each once, in the order of their first mention. -/
def variableNames (e : Expr) : List String := e.mentions.eraseDups

/-! ## Text -/

mutual

/-- The characters of an expression, in front of those that follow it. -/
def write : Expr → List Char → List Char
  | .number value, rest => Decimal.plainLayout.chars value ++ rest
  | .var name, rest => name.toList ++ rest
  | .call function args, rest => function.toList ++ '(' :: writeAll args (')' :: rest)
  | .binary op left right, rest =>
    '(' :: left.write (' ' :: op.symbol :: ' ' :: right.write (')' :: rest))

/-- The characters of arguments, with a comma and a space between them, in front of those that
follow. -/
def writeAll : List Expr → List Char → List Char
  | [], rest => rest
  | [arg], rest => arg.write rest
  | arg :: args, rest => arg.write (',' :: ' ' :: writeAll args rest)

end

def text (e : Expr) : String := String.ofList (e.write [])

end Expr

end TradePlan
