import TradePlan.Text.Case

/-!
# The words of formulas

The variables a formula may read, and the policy on the names that stand for the entry price.
-/

namespace TradePlan

/-- The variables in the spelling in which they are documented. -/
def standardVariables : List String :=
  ["entry", "low", "high", "prev_low", "prev_high", "atr", "qty", "buying_power", "bid", "ask",
    "last", "close", "marketPrice", "volume", "avg_volume", "partial_pct", "entry_price",
    "stop_loss", "profit_target", "trailing_stop"]

/-- The names of price levels that may be read as other names of the entry price. -/
def entryAliases : List String := ["entry_price", "stop_loss", "profit_target", "trailing_stop"]

/-- Whether a name, in small letters, is the name of a variable. -/
def isVariable (name : String) : Bool := (standardVariables.map Text.foldCase).contains name

/-- How the aliases of the entry price are read. -/
inductive AliasPolicy where
  /-- Every alias is the entry price. -/
  | collapse
  /-- Every alias is a variable of its own. -/
  | distinct
deriving DecidableEq

/-- The name under which the value of a variable is looked up. -/
def AliasPolicy.canonical (policy : AliasPolicy) (name : String) : String :=
  match policy with
  | .collapse => if entryAliases.contains name then "entry" else name
  | .distinct => name

end TradePlan
