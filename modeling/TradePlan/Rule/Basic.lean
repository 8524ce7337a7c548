import TradePlan.Decimal.Layout
import TradePlan.Rule.Fallback
import TradePlan.Text.Blank

/-!
# Trading rules

A rule names the formulas of its stop loss, its trailing stop and its profit target.  An empty
formula stands for the default of its level.
-/

namespace TradePlan

/-- The strategies chosen in a rule; the others are recognised from its formulas. -/
structure FallbackChoices where
  stop : Option StopFallback := none
  target : Option TargetFallback := none
  trail : Option TrailFallback := none
deriving DecidableEq

def FallbackChoices.isEmpty (choices : FallbackChoices) : Bool :=
  choices.stop.isNone && choices.target.isNone && choices.trail.isNone

/-- A trading rule.  `partialPct` is the share of a position that is sold at the target, and
`exitRule` is a tag for whoever places the order. -/
structure TradingRule where
  name : String
  stopLoss : String := ""
  trailingStop : String := ""
  profitTaking : String := ""
  partialPct : Float := 0
  exitRule : String := ""
  selected : Bool := false
  fallback : FallbackChoices := {}
deriving DecidableEq

namespace TradingRule

/-! ## Strategies -/

def stopFallback (rule : TradingRule) : StopFallback :=
  rule.fallback.stop.getD (.recognize rule.stopLoss)

def targetFallback (rule : TradingRule) : TargetFallback :=
  rule.fallback.target.getD (.recognize rule.profitTaking)

def trailFallback (rule : TradingRule) : TrailFallback :=
  rule.fallback.trail.getD (.recognize rule.trailingStop)

/-! ## Checks -/

/-- What is wrong with a rule, alone or among others. -/
inductive Fault where
  | blankName
  | partialPctOutOfRange (value : Float)
  | duplicateName
  | secondSelection
deriving DecidableEq

def Fault.message : Fault → String
  | blankName => "name must not be empty"
  | partialPctOutOfRange value =>
    "PartialPct must be between 0 and 100, got " ++ Decimal.plain value
  | duplicateName => "duplicate rule name"
  | secondSelection => "more than one rule is selected"

/-- Whether a number is a percentage from 0 to 100. -/
def isPercent (x : Float) : Bool := decide (0 ≤ x) && decide (x ≤ 100)

theorem isPercent_iff {x : Float} : isPercent x = true ↔ 0 ≤ x ∧ x ≤ 100 := by
  rw [isPercent, Bool.and_eq_true, decide_eq_true_eq, decide_eq_true_eq]

/-- What is wrong with the fields of a rule. -/
def fault? (rule : TradingRule) : Option Fault :=
  if Text.isBlankText rule.name then some .blankName
  else if !isPercent rule.partialPct then some (.partialPctOutOfRange rule.partialPct)
  else none

/-- What is wrong with the first rule that has a fault: one in its own fields, a name of a rule
before it, or a second selection.  `names` and `selected` tell what the rules before it hold. -/
def firstFaultAfter? (names : List String) (selected : Bool) :
    List TradingRule → Option (String × Fault)
  | [] => none
  | rule :: rest =>
    match rule.fault? with
    | some fault => some (rule.name, fault)
    | none =>
      if names.contains rule.name then some (rule.name, .duplicateName)
      else if rule.selected && selected then some (rule.name, .secondSelection)
      else firstFaultAfter? (rule.name :: names) (rule.selected || selected) rest

/-- The name of the first rule that has a fault, with its fault. -/
def firstFault? (rules : List TradingRule) : Option (String × Fault) :=
  firstFaultAfter? [] false rules

/-! ## Defaults -/

def defaults : List TradingRule :=
  [{ name := "Dead Cat", stopLoss := "low", profitTaking := "vwap", selected := true },
    { name := "Arndt Daily 1/3 Breakeven", stopLoss := "low", profitTaking := "entry * 1.05",
      partialPct := 33.3, exitRule := "move_stop_to_breakeven_after_partial" },
    { name := "Arndt Weekly 1/3 Breakeven", stopLoss := "low_of_week",
      profitTaking := "entry * 1.05", partialPct := 33.3,
      exitRule := "move_stop_to_breakeven_after_partial" },
    { name := "Basic Arndt", stopLoss := "low if entry_type == 'Long' else high",
      trailingStop := "atr * 1.5",
      profitTaking :=
        "entry + (8 * atr) if entry_type == 'Long' else entry - (tp_mult * atr)" }]

/-! ## Listing -/

/-- The lines of a rule in a listing; a star marks the selected one. -/
def lines (rule : TradingRule) : List String :=
  [(if rule.selected then "*" else " ") ++ " " ++ rule.name,
    "    stop loss:     " ++ rule.stopLoss,
    "    profit target: " ++ rule.profitTaking,
    "    trailing stop: " ++ rule.trailingStop,
    "    partial:       " ++ Decimal.plain rule.partialPct ++ "%"]
  ++ (if rule.exitRule = "" then [] else ["    exit rule:     " ++ rule.exitRule])

def listing (rules : List TradingRule) : String := Text.ofLines (rules.flatMap lines)

end TradingRule

end TradePlan
