import TradePlan.Json.Reader
import TradePlan.Json.Writer
import TradePlan.Rule.Basic

/-!
# Rule files

A rule file is an array of rules.  A rule is an object whose fields may stand in any order, with
defaults for all but the name, and with fields of other names passed over; or an array of the fields
in their order, of which the last may be missing.
-/

namespace TradePlan.Document

/-! ## Fields -/

def ruleFields : List String :=
  ["Name", "StopLoss", "TrailingStop", "ProfitTaking", "PartialPct", "ExitRule", "Selected",
    "Fallback"]

def fallbackFields : List String := ["StopLoss", "ProfitTaking", "TrailingStop"]

/-- Numbers in rule files: a mark on whole numbers, and a power of ten outside
`0.00001 … 10 ^ 16`. -/
def numberLayout : Decimal.Layout where
  wholeMark := true
  window := some (-4, 16)
  tie := .even

/-! ## Writing -/

def ofText (text : String) : Json := .string (some text)

def member (key : String) (value : Json) : Option String × Json := (some key, value)

/-- The chosen strategies as members of an object. -/
def ofChoices (choices : FallbackChoices) : Json :=
  .object (
    (choices.stop.map fun s => member "StopLoss" (ofText s.key)).toList
      ++ (choices.target.map fun s => member "ProfitTaking" (ofText s.key)).toList
      ++ (choices.trail.map fun s => member "TrailingStop" (ofText s.key)).toList)

/-- A rule as an object.  The strategies stand in it only if one is chosen. -/
def ofRule (rule : TradingRule) : Json :=
  .object (
    [member "Name" (ofText rule.name),
      member "StopLoss" (ofText rule.stopLoss),
      member "TrailingStop" (ofText rule.trailingStop),
      member "ProfitTaking" (ofText rule.profitTaking),
      member "PartialPct" (.number (numberLayout.chars rule.partialPct)),
      member "ExitRule" (ofText rule.exitRule),
      member "Selected" (.bool rule.selected)]
    ++ (if rule.fallback.isEmpty then [] else [member "Fallback" (ofChoices rule.fallback)]))

def write (rules : List TradingRule) : String := (Json.array (rules.map ofRule)).text

/-! ## Reading -/

def toText? : Json → Option String
  | .string text => text
  | _ => none

def toBool? : Json → Option Bool
  | .bool value => some value
  | _ => none

def toNumber? : Json → Option Float
  | .number literal => Json.numberValue? literal
  | _ => none

/-- The name of a strategy: a text, or an object whose only member has that name and no value. -/
def toKey? : Json → Option String
  | .string text => text
  | .object [(key, .null)] => key
  | _ => none

/-- A strategy that may be left open with `null`. -/
def toChoice? {strategy : Type} (ofKey? : String → Option strategy) : Json →
    Option (Option strategy)
  | .null => some none
  | value => (toKey? value).bind fun key => (ofKey? key).map some

/-- The values of fields given by name.  A key that is no text is refused, so is a field that stands
twice. -/
def valuesOf? (members : List (Option String × Json)) (names : List String) :
    Option (List (Option Json)) :=
  if members.any fun (key, _) => key.isNone then none
  else names.mapM fun name =>
    match members.filter fun (key, _) => key == some name with
    | [] => some none
    | [(_, value)] => some (some value)
    | _ => none

/-- The values of fields given by name or in their order. -/
def fieldValues? (names : List String) : Json → Option (List (Option Json))
  | .object members => valuesOf? members names
  | .array items =>
    if names.length < items.length then none
    else some (items.map some ++ List.replicate (names.length - items.length) none)
  | _ => none

/-- Reads a field, or takes its default if it is missing. -/
def field? {α : Type} (default : α) (read : Json → Option α) : Option Json → Option α
  | none => some default
  | some value => read value

def toChoices? (value : Json) : Option FallbackChoices :=
  match fieldValues? fallbackFields value with
  | some [stop, target, trail] => do
    return {
      stop := ← field? none (toChoice? StopFallback.ofKey?) stop
      target := ← field? none (toChoice? TargetFallback.ofKey?) target
      trail := ← field? none (toChoice? TrailFallback.ofKey?) trail }
  | _ => none

def toRule? (value : Json) : Option TradingRule :=
  match fieldValues? ruleFields value with
  | some [name, stop, trail, target, partialPct, exitRule, selected, fallback] => do
    return {
      name := ← name.bind toText?
      stopLoss := ← field? "" toText? stop
      trailingStop := ← field? "" toText? trail
      profitTaking := ← field? "" toText? target
      partialPct := ← field? 0 toNumber? partialPct
      exitRule := ← field? "" toText? exitRule
      selected := ← field? false toBool? selected
      fallback := ← field? {} toChoices? fallback }
  | _ => none

def read? (text : String) : Option (List TradingRule) := do
  match ← Json.read? text with
  | .array items => items.mapM toRule?
  | _ => none

end TradePlan.Document
