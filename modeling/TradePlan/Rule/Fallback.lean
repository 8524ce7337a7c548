import TradePlan.Rule.Side
import TradePlan.Text.Search

/-!
# Fallback strategies

When the formula of a level has no value, a fixed strategy gives the level.  A strategy is chosen
in the rule or recognised from words of the formula, in a fixed order of priority.  Letter case does
not count in those words; they are ASCII, and no other letter alone folds into one of theirs.
-/

namespace TradePlan

/-! ## Stop loss -/

/-- Where a stop is put when its formula has no value. -/
inductive StopFallback where
  | low
  | high
  | entry
  /-- The low for a long entry and the high for a short one. -/
  | sideDefault
deriving DecidableEq

namespace StopFallback

def all : List StopFallback := [low, high, entry, sideDefault]

/-- The name of a strategy in reports. -/
def label : StopFallback → String
  | low => "Low"
  | high => "High"
  | entry => "Entry"
  | sideDefault => "SideDefault"

/-- The name of a strategy in rule files. -/
def key : StopFallback → String
  | low => "low"
  | high => "high"
  | entry => "entry"
  | sideDefault => "side_default"

def ofKey? (key : String) : Option StopFallback := all.find? fun s => s.key == key

/-- The strategy that the words of a formula suggest. -/
def recognize (formula : String) : StopFallback :=
  let formula := Text.foldCase formula
  if Text.mentions formula "low" then low
  else if Text.mentions formula "high" then high
  else if Text.mentions formula "entry" then entry
  else sideDefault

def price (strategy : StopFallback) (entryPrice : Float) (side : Side)
    (lowPrice highPrice : Float) : Float :=
  match strategy, side with
  | low, _ => lowPrice
  | high, _ => highPrice
  | entry, _ => entryPrice
  | sideDefault, .long => lowPrice
  | sideDefault, .short => highPrice

end StopFallback

/-! ## Profit target -/

/-- Where a target is put when its formula has no value. -/
inductive TargetFallback where
  | fivePercent
  | eightAtr
  /-- Two percent above the entry, in place of the volume-weighted average price. -/
  | vwap
  | noTarget
deriving DecidableEq

namespace TargetFallback

def all : List TargetFallback := [fivePercent, eightAtr, vwap, noTarget]

def label : TargetFallback → String
  | fivePercent => "FivePercent"
  | eightAtr => "EightAtr"
  | vwap => "Vwap"
  | noTarget => "NoTarget"

def key : TargetFallback → String
  | fivePercent => "five_percent"
  | eightAtr => "eight_atr"
  | vwap => "vwap"
  | noTarget => "no_target"

def ofKey? (key : String) : Option TargetFallback := all.find? fun s => s.key == key

def recognize (formula : String) : TargetFallback :=
  let formula := Text.foldCase formula
  if Text.mentions formula "entry * 1.05" then fivePercent
  else if Text.mentions formula "entry + (8 * atr)" then eightAtr
  else if Text.mentions formula "vwap" then vwap
  else noTarget

def price (strategy : TargetFallback) (entryPrice atr : Float) : Float :=
  match strategy with
  | fivePercent => entryPrice * 1.05
  | eightAtr => entryPrice + 8 * atr
  | vwap => entryPrice * 1.02
  | noTarget => 0

end TargetFallback

/-! ## Trailing stop -/

/-- The distance of a trailing stop when its formula has no value. -/
inductive TrailFallback where
  | oneAndHalfAtr
  /-- The average range times 1.3, in place of its average over thirteen periods. -/
  | atr13
  | noTrail
deriving DecidableEq

namespace TrailFallback

def all : List TrailFallback := [oneAndHalfAtr, atr13, noTrail]

def label : TrailFallback → String
  | oneAndHalfAtr => "OneAndHalfAtr"
  | atr13 => "Atr13"
  | noTrail => "NoTrail"

def key : TrailFallback → String
  | oneAndHalfAtr => "one_and_half_atr"
  | atr13 => "atr13"
  | noTrail => "no_trail"

def ofKey? (key : String) : Option TrailFallback := all.find? fun s => s.key == key

def recognize (formula : String) : TrailFallback :=
  let formula := Text.foldCase formula
  if Text.mentions formula "atr * 1.5" then oneAndHalfAtr
  else if Text.mentions formula "atr13" then atr13
  else noTrail

def distance (strategy : TrailFallback) (atr : Float) : Float :=
  match strategy with
  | oneAndHalfAtr => atr * 1.5
  | atr13 => atr * 1.3
  | noTrail => 0

end TrailFallback

/-! ## Lemmas -/

theorem StopFallback.ofKey?_key (s : StopFallback) : ofKey? s.key = some s := by
  cases s <;> decide

theorem TargetFallback.ofKey?_key (s : TargetFallback) : ofKey? s.key = some s := by
  cases s <;> decide

theorem TrailFallback.ofKey?_key (s : TrailFallback) : ofKey? s.key = some s := by
  cases s <;> decide

end TradePlan
