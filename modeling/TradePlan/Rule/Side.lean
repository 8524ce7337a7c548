import TradePlan.Text.Case

/-!
# Entry side

Whether a position gains when the price rises or when it falls.
-/

namespace TradePlan

/-- The side on which a position is entered. -/
inductive Side where
  | long
  | short
deriving DecidableEq

namespace Side

/-- The side as a factor of price moves. -/
def sign : Side → Float
  | long => 1
  | short => -1

def label : Side → String
  | long => "Long"
  | short => "Short"

/-- Reads a side in any letter case; buying is going long and selling is going short. -/
def ofText? (text : String) : Option Side :=
  let word := Text.foldCase text
  if word = "long" ∨ word = "buy" then some long
  else if word = "short" ∨ word = "sell" then some short
  else none

end Side

end TradePlan
