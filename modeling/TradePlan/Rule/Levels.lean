import TradePlan.Formula.Evaluate
import TradePlan.Rule.Basic

/-!
# Price levels of a rule

The formulas of a rule are evaluated for a market.  A blank formula gives the default of its level,
and one that has no value gives the level of its fallback strategy and keeps the error.

A stop formula reads `entry`, `low` and `high`, a target formula `entry` and `atr`, and a trailing
stop formula `atr` alone.
-/

namespace TradePlan

/-- Where the value of a level comes from. -/
inductive LevelSource (strategy : Type) where
  | default
  | formula
  | fallback (choice : strategy) (error : FormulaError)
deriving DecidableEq

structure Level (strategy : Type) where
  value : Float
  source : LevelSource strategy
deriving DecidableEq

def Level.isFallback {strategy : Type} (level : Level strategy) : Bool :=
  match level.source with
  | .fallback _ _ => true
  | _ => false

/-- The market in which a position is entered. -/
structure Market where
  entry : Float
  side : Side
  low : Float
  high : Float
  atr : Float
deriving DecidableEq

structure Levels where
  stopLoss : Level StopFallback
  profitTarget : Level TargetFallback
  trailingStop : Level TrailFallback
deriving DecidableEq

/-- The level of a formula: `value` if it is blank, and the fallback if it has no value. -/
def Level.ofFormula {strategy : Type} (policy : AliasPolicy) (bindings : Bindings)
    (formula : String) (value : Float) (choice : strategy) (fallback : Float) : Level strategy :=
  if Text.isBlankText formula then ⟨value, .default⟩
  else
    match Formula.evaluate policy bindings formula with
    | .ok value => ⟨value, .formula⟩
    | .error error => ⟨fallback, .fallback choice error⟩

namespace TradingRule

/-- The stop loss.  Its default is the low for a long entry and the high for a short one.  The side
is bound to `entry_type`, which is no variable of formulas. -/
def stopLevel (policy : AliasPolicy) (rule : TradingRule) (entry : Float) (side : Side)
    (low high : Float) : Level StopFallback :=
  .ofFormula policy
    (.ofList [("entry", entry), ("low", low), ("high", high), ("entry_type", side.sign)])
    rule.stopLoss (StopFallback.sideDefault.price entry side low high)
    rule.stopFallback (rule.stopFallback.price entry side low high)

/-- The profit target.  Its default is zero, which stands for none. -/
def targetLevel (policy : AliasPolicy) (rule : TradingRule) (entry atr : Float) :
    Level TargetFallback :=
  .ofFormula policy (.ofList [("entry", entry), ("atr", atr)]) rule.profitTaking 0
    rule.targetFallback (rule.targetFallback.price entry atr)

/-- The trailing stop.  Its default is zero, which stands for none. -/
def trailLevel (policy : AliasPolicy) (rule : TradingRule) (atr : Float) : Level TrailFallback :=
  .ofFormula policy (.ofList [("atr", atr)]) rule.trailingStop 0
    rule.trailFallback (rule.trailFallback.distance atr)

def levels (policy : AliasPolicy) (rule : TradingRule) (market : Market) : Levels where
  stopLoss := rule.stopLevel policy market.entry market.side market.low market.high
  profitTarget := rule.targetLevel policy market.entry market.atr
  trailingStop := rule.trailLevel policy market.atr

end TradingRule

end TradePlan
