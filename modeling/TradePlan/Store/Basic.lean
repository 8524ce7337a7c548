import TradePlan.Failure
import TradePlan.Files.Slot
import TradePlan.Store.Document

/-!
# Rule store

The rules are kept in one file.  Each operation reads the file anew and works on what is at its
path; a store without a file first installs the default rules.  The file is reached through a
`SlotAccess`, so an operation runs on a slot by itself as it does on a device, and there every write
is a put.
-/

namespace TradePlan

/-- Operations of the store in a state, which is kept when they fail. -/
abbrev StoreT (σ : Type) := ExceptT Failure (StateM σ)

/-- Operations on what is at the path of the store. -/
abbrev StoreM := StoreT Slot

namespace Store

/-- The failure of the first rule that has a fault. -/
def check (rules : List TradingRule) : Except Failure Unit :=
  match TradingRule.firstFault? rules with
  | some (name, fault) => .error (.ruleInvalid name fault.message)
  | none => .ok ()

/-- What is said of a text that is no rule file. -/
def documentReason : String := "the text is not a list of rules"

variable {m : Type → Type} [Monad m] [SlotAccess m]

def look : ExceptT Failure m Slot := ExceptT.lift SlotAccess.look

def put (path : String) (slot : Slot) : ExceptT Failure m Unit := do
  match ← ExceptT.lift (SlotAccess.put slot) with
  | none => return
  | some fault => throw (.ruleStore path fault.message)

/-- Writes rules that pass the check. -/
def save (path : String) (rules : List TradingRule) : ExceptT Failure m Unit := do
  check rules
  match (← look).writeText (Document.write rules) with
  | .ok slot => put path slot
  | .error fault => throw (.ruleStore path fault.message)

/-- Reads the rules.  Where nothing is, the default rules are installed. -/
def load (path : String) : ExceptT Failure m (List TradingRule) := do
  let slot ← look
  if slot.exists? then
    match slot.readText with
    | .error fault => throw (.ruleStore path fault.message)
    | .ok text =>
      match Document.read? text with
      | none => throw (.ruleStore path documentReason)
      | some rules => do
        check rules
        return rules
  else do
    save path TradingRule.defaults
    return TradingRule.defaults

def find (path name : String) : ExceptT Failure m TradingRule := do
  match (← load path).find? fun rule => rule.name == name with
  | some rule => return rule
  | none => throw (.ruleNotFound name)

def selected (path : String) : ExceptT Failure m TradingRule := do
  match (← load path).find? TradingRule.selected with
  | some rule => return rule
  | none => throw .noSelectedRule

/-- Rules with the rule of a name as the only one selected. -/
def selectIn (name : String) (rules : List TradingRule) : List TradingRule :=
  rules.map fun rule => { rule with selected := rule.name == name }

/-- Makes the rule of a name the only one selected. -/
def select (path name : String) : ExceptT Failure m Unit := do
  let rules ← load path
  if rules.any fun rule => rule.name == name then save path (selectIn name rules)
  else throw (.ruleNotFound name)

end Store

end TradePlan
