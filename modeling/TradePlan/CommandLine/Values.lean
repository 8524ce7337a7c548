import TradePlan.Decimal.Reading
import TradePlan.Rule.Side
import TradePlan.Text.Blank
import TradePlan.Text.Search

/-!
# Values of options

The values that options take: texts, paths, numbers, sides, and variables with their values.
-/

namespace TradePlan

/-! ## Variables -/

/-- Why a text is no variable with a value. -/
inductive VarFault where
  | noEquals (text : String)
  | noName (text : String)
  | notNumber (text : String)
deriving DecidableEq

def VarFault.message : VarFault → String
  | noEquals text => "expected name=value, got '" ++ text ++ "'"
  | noName text => "missing variable name in '" ++ text ++ "'"
  | notNumber text => "'" ++ text ++ "' is not a number"

/-- Reads `name=value`; blanks around both do not count. -/
def readVar (text : String) : Except VarFault (String × Float) :=
  match Text.cutAt? (· == '=') text.toList with
  | none => .error (.noEquals text)
  | some (name, value) =>
    if Text.trimChars name = [] then .error (.noName text)
    else
      match Decimal.readChars (Text.trimChars value) with
      | .error _ => .error (.notNumber (String.ofList (Text.trimChars value)))
      | .ok x => .ok (String.ofList (Text.trimChars name), x)

/-! ## Sides -/

/-- What is said of a text that is no side. -/
def unknownSide (text : String) : String :=
  "unknown side '" ++ text ++ "', expected long or short"

/-! ## Options -/

inductive ValueKind where
  | text
  | path
  | number
  | side
  | binding
deriving DecidableEq

inductive OptionValue where
  | text (value : String)
  | number (value : Float)
  | side (value : Side)
  | binding (name : String) (value : Float)
deriving DecidableEq

/-- What is wrong with the value of an option. -/
inductive ValueFault where
  | missing
  | unreadable
deriving DecidableEq

/-- Reads a value.  A path has to name something. -/
def ValueKind.read : ValueKind → String → Except ValueFault OptionValue
  | .text, written => .ok (.text written)
  | .path, written => if written = "" then .error .missing else .ok (.text written)
  | .number, written =>
    match Decimal.read written with
    | .ok x => .ok (.number x)
    | .error _ => .error .unreadable
  | .side, written =>
    match Side.ofText? written with
    | some s => .ok (.side s)
    | none => .error .unreadable
  | .binding, written =>
    match readVar written with
    | .ok (name, x) => .ok (.binding name x)
    | .error _ => .error .unreadable

end TradePlan
