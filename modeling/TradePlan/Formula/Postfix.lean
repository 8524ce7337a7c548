import TradePlan.Formula.Arithmetic
import TradePlan.Formula.Token

/-!
# Postfix order

A formula in postfix order names its operands before their operator, and the arguments of a call
before the call.  `Postfix.ofTokens` reorders the tokens of a formula with a stack of the operators,
parentheses and calls that wait for what follows them.

Parentheses need not be balanced: a closing one with nothing open is passed over, and what is open
at the end is closed there.  Each argument of a call has to leave one value of its own.
-/

namespace TradePlan

/-- An item of a formula in postfix order. -/
inductive Postfix where
  | number (value : Float)
  | var (name : String)
  | operator (op : Operator)
  | call (function : String) (argc : Nat)
deriving DecidableEq

namespace Postfix

def text : Postfix → String
  | number value => Decimal.plain value
  | var name => name
  | operator op => op.symbol.toString
  | call function argc => function ++ "/" ++ toString argc

/-- The text of a sequence, with a space between items. -/
def render (items : List Postfix) : String := " ".intercalate (items.map text)

/-- How many values an item adds to those before it. -/
def effect : Postfix → Int
  | number _ => 1
  | var _ => 1
  | operator _ => -1
  | call _ argc => 1 - argc

/-- How many values a sequence leaves. -/
def height : List Postfix → Int
  | [] => 0
  | item :: items => item.effect + height items

/-! ## Conversion -/

/-- What waits for the tokens after it.  A call counts its commas, and `mark` is the height at
which its current argument began. -/
inductive Pending where
  | operator (op : Operator)
  | paren
  | call (function : String) (commas : Nat) (mark : Int)
deriving DecidableEq

/-- The items so far, the latest first, with their height. -/
structure Output where
  items : List Postfix
  depth : Int
  depth_eq : depth = height items

namespace Output

def empty : Output := ⟨[], 0, rfl⟩

def push (output : Output) (item : Postfix) : Output where
  items := item :: output.items
  depth := item.effect + output.depth
  depth_eq := by simp [height, output.depth_eq]

/-- Moves the pending operators on top to the output, as long as they satisfy a condition. -/
def release (output : Output) (condition : Operator → Bool) : List Pending → Output × List Pending
  | .operator op :: pending =>
    if condition op then (output.push (.operator op)).release condition pending
    else (output, .operator op :: pending)
  | pending => (output, pending)

/-- Checks that an argument that began at height `mark` has left one value. -/
def checkArgument (output : Output) (function : String) (mark : Int) : Except FormulaError Unit :=
  let count := output.depth - mark
  if count = 1 then .ok ()
  else if count < 1 then .error (.malformed (.missingValue function))
  else .error (.malformed (.surplusValues function count.toNat))

end Output

/-- A conversion under way: the output, and what is pending, the latest first.  `opened` says that
the last token was an opening parenthesis. -/
structure Conversion where
  output : Output
  pending : List Pending
  opened : Bool

namespace Conversion

/-- Nothing read yet. -/
def start : Conversion := ⟨.empty, [], false⟩

def operand (c : Conversion) (item : Postfix) : Conversion := ⟨c.output.push item, c.pending, false⟩

def openParen (c : Conversion) : Conversion := ⟨c.output, .paren :: c.pending, true⟩

def openCall (c : Conversion) (function : String) : Conversion :=
  ⟨c.output, .call function 0 c.output.depth :: c.pending, true⟩

/-- Adds an operator.  Those that wait and bind at least as strongly come first. -/
def operate (c : Conversion) (op : Operator) : Conversion :=
  let (output, pending) :=
    c.output.release (fun top => decide (op.precedence ≤ top.precedence)) c.pending
  ⟨output, .operator op :: pending, false⟩

/-- Ends an argument of the innermost call. -/
def comma (c : Conversion) : Except FormulaError Conversion :=
  let (output, pending) := c.output.release (fun _ => true) c.pending
  match pending with
  | .call function commas mark :: pending => do
    output.checkArgument function mark
    return ⟨output, .call function (commas + 1) output.depth :: pending, false⟩
  | _ => .error (.malformed .commaOutsideCall)

/-- Closes the innermost parenthesis or call.  Directly after an opening parenthesis a call has no
arguments. -/
def close (c : Conversion) : Except FormulaError Conversion :=
  let (output, pending) := c.output.release (fun _ => true) c.pending
  match pending with
  | .call function commas mark :: pending =>
    if c.opened then .ok ⟨output.push (.call function 0), pending, false⟩
    else do
      output.checkArgument function mark
      return ⟨output.push (.call function (commas + 1)), pending, false⟩
  | pending => .ok ⟨output, pending.drop 1, false⟩

/-- Reads tokens.  A name directly before an opening parenthesis opens a call. -/
def run (c : Conversion) : List Token → Except FormulaError Conversion
  | [] => .ok c
  | .identifier name :: .leftParen :: rest =>
    if Builtin.isName name then run (c.openCall name) rest
    else .error (.unknownFunction name)
  | .identifier name :: rest => run (c.operand (.var name)) rest
  | .number value :: rest => run (c.operand (.number value)) rest
  | .operator op :: rest => run (c.operate op) rest
  | .leftParen :: rest => run c.openParen rest
  | .comma :: rest => do run (← c.comma) rest
  | .rightParen :: rest => do run (← c.close) rest

/-- Closes everything that is still open. -/
def finish (output : Output) : List Pending → Except FormulaError (List Postfix)
  | [] => .ok output.items.reverse
  | .operator op :: pending => finish (output.push (.operator op)) pending
  | .paren :: pending => finish output pending
  | .call function commas mark :: pending => do
    output.checkArgument function mark
    finish (output.push (.call function (commas + 1))) pending

end Conversion

/-- The tokens of a formula in postfix order. -/
def ofTokens (tokens : List Token) : Except FormulaError (List Postfix) := do
  let c ← Conversion.start.run tokens
  Conversion.finish c.output c.pending

end Postfix

end TradePlan
