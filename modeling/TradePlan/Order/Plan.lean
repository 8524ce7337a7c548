import TradePlan.Position.Size
import TradePlan.Risk.Ladder
import TradePlan.Rule.Levels

/-!
# Order plan

A plan joins the levels of a rule, the risk of the ladder and the size of the position.
-/

namespace TradePlan

structure Planner where
  aliases : AliasPolicy
  ladder : RiskLadder
  capFraction : Float

def Planner.standard : Planner where
  aliases := .collapse
  ladder := .standard
  capFraction := defaultCapFraction

/-- All that is needed to place an order. -/
structure OrderPlan where
  ruleName : String
  market : Market
  levels : Levels
  ladder : LadderState
  riskPercent : Float
  position : Position Float
  partialPct : Float
  exitRule : String

/-- Plans an order.  The position is sized with the stop of the rule and the risk that the history
of results has led to. -/
def Planner.plan (planner : Planner) (rule : TradingRule) (market : Market)
    (results : List Float) (buyingPower : Float) (volume : Option Float) :
    Except (SizingError Float) OrderPlan := do
  let levels := rule.levels planner.aliases market
  let ladder := planner.ladder.replay results
  let riskPercent := planner.ladder.riskPercent ladder
  let request : SizeRequest Float := {
    entry := market.entry
    stop := levels.stopLoss.value
    riskPercent
    buyingPower
    volume
    partialFill := some rule.partialPct }
  let position ← request.size planner.capFraction
  return {
    ruleName := rule.name
    market
    levels
    ladder
    riskPercent
    position
    partialPct := rule.partialPct
    exitRule := rule.exitRule }

/-! ## Text -/

/-- The line of a level: its price with four decimal places, and its source if that is not the
formula.  Labels are padded to one width by their callers. -/
def Level.line {strategy : Type} (label : String) (name : strategy → String)
    (level : Level strategy) : String :=
  let price := label ++ Decimal.fixed 4 level.value
  match level.source with
  | .formula => price
  | .default => price ++ " (default)"
  | .fallback choice error => price ++ " (fallback " ++ name choice ++ ": " ++ error.message ++ ")"

def OrderPlan.lines (plan : OrderPlan) : List String :=
  ["rule:          " ++ plan.ruleName,
    "entry:         " ++ Decimal.fixed 4 plan.market.entry ++ " " ++ plan.market.side.label,
    plan.levels.stopLoss.line "stop loss:     " StopFallback.label,
    plan.levels.profitTarget.line "profit target: " TargetFallback.label,
    plan.levels.trailingStop.line "trailing stop: " TrailFallback.label,
    "ladder tier:   " ++ toString (plan.ladder.tier + 1),
    "partial:       " ++ Decimal.plain plan.partialPct ++ "%"]
  ++ (if plan.exitRule = "" then [] else ["exit rule:     " ++ plan.exitRule])
  ++ plan.position.lines

def OrderPlan.text (plan : OrderPlan) : String := Text.ofLines plan.lines

end TradePlan
