import TradePlan.Formula.Error
import TradePlan.Number.Whole

/-!
# Arithmetic on prices

Applying an operator or one of the built-in functions.  A result that is not finite is an error, so
is a division by zero.
-/

namespace TradePlan

/-- Passes on a finite value and turns every other one into the given fault. -/
def requireFinite (value : Float) (fault : DomainFault) : Except FormulaError Float :=
  if value.isFinite then .ok value else .error (.domain fault)

/-! ## Operators -/

/-- The bare operation, defined for all operands. -/
def Operator.compute : Operator → Float → Float → Float
  | .add, a, b => a + b
  | .sub, a, b => a - b
  | .mul, a, b => a * b
  | .div, a, b => a / b
  | .rem, a, b => remainder a b
  | .pow, a, b => Float.pow a b

def Operator.divides : Operator → Bool
  | .div | .rem => true
  | _ => false

def Operator.apply (op : Operator) (a b : Float) : Except FormulaError Float :=
  if op.divides && b == 0.0 then .error (.domain (.zeroDivisor a op))
  else requireFinite (op.compute a b) (.operation a op b)

/-! ## Functions -/

inductive Arity where
  | exactly (count : Nat)
  | atLeast (count : Nat)
deriving DecidableEq

def Arity.accepts : Arity → Nat → Bool
  | .exactly n, count => count == n
  | .atLeast n, count => decide (n ≤ count)

def Arity.text : Arity → String
  | .exactly n => toString n
  | .atLeast n => "at least " ++ toString n

/-- A function that formulas may call. -/
inductive Builtin where
  | min
  | max
  | abs
  | round
  | floor
  | ceil
  | sqrt
  | pow
  | log
  | exp
deriving DecidableEq

namespace Builtin

def all : List Builtin := [min, max, abs, round, floor, ceil, sqrt, pow, log, exp]

def name : Builtin → String
  | min => "min"
  | max => "max"
  | abs => "abs"
  | round => "round"
  | floor => "floor"
  | ceil => "ceil"
  | sqrt => "sqrt"
  | pow => "pow"
  | log => "log"
  | exp => "exp"

def ofName? (name : String) : Option Builtin := all.find? fun f => f.name == name

def isName (name : String) : Bool := (ofName? name).isSome

def arity : Builtin → Arity
  | min | max => .atLeast 1
  | pow => .exactly 2
  | abs | round | floor | ceil | sqrt | log | exp => .exactly 1

/-- The least argument.  Of equal ones, such as the two zeros, the last is taken, and what is not a
number is passed over. -/
def least (args : List Float) : Float :=
  args.foldl (fun least x => if x ≤ least then x else least) (1.0 / 0.0)

/-- The greatest argument.  Of equal ones, such as the two zeros, the last is taken, and what is not
a number is passed over. -/
def greatest (args : List Float) : Float :=
  args.foldl (fun greatest x => if greatest ≤ x then x else greatest) (-1.0 / 0.0)

/-- The bare function.  Lists that do not fit the arity have no meaning and give no number. -/
def compute : Builtin → List Float → Float
  | min, args => least args
  | max, args => greatest args
  | abs, [x] => x.abs
  | round, [x] => WholeRule.nearestEven.round x
  | floor, [x] => WholeRule.down.round x
  | ceil, [x] => WholeRule.up.round x
  | sqrt, [x] => x.sqrt
  | pow, [x, y] => Float.pow x y
  | log, [x] => x.log
  | exp, [x] => x.exp
  | _, _ => 0.0 / 0.0

def call (f : Builtin) (args : List Float) : Except FormulaError Float :=
  if f.arity.accepts args.length then requireFinite (f.compute args) (.call f.name args)
  else .error (.arity f.name f.arity.text args.length)

end Builtin

end TradePlan
