/-!
# Risk ladder

The share of the account that a trade may lose stands on a ladder of tiers.  A streak of wins of a
fixed length moves it one tier up, a streak of losses one tier down, and a move starts the count
anew.  At the end of the ladder there is no move, and the count goes on.
-/

namespace TradePlan

/-- A ladder: the risk in percent for each tier, the lowest first, and the length of a streak. -/
structure RiskLadder where
  tiers : List Float
  streak : Nat
  tiers_ne_nil : tiers ≠ []
  streak_pos : 0 < streak

/-- The tier, counted from zero, and the lengths of the streak under way. -/
structure LadderState where
  tier : Nat := 0
  wins : Nat := 0
  losses : Nat := 0
deriving DecidableEq

/-- Whether a result is a win.  A trade without loss is one. -/
def isWin (pnl : Float) : Bool := decide (0 ≤ pnl)

namespace RiskLadder

/-- Three tiers and streaks of two. -/
def standard : RiskLadder where
  tiers := [0.25, 0.5, 1]
  streak := 2
  tiers_ne_nil := by simp
  streak_pos := by decide

/-- A ladder needs a tier and a streak length of at least one. -/
def ofTiers? (tiers : List Float) (streak : Nat) : Option RiskLadder :=
  if h : tiers ≠ [] ∧ 0 < streak then some ⟨tiers, streak, h.1, h.2⟩ else none

def top (ladder : RiskLadder) : Nat := ladder.tiers.length - 1

def step (ladder : RiskLadder) (state : LadderState) (win : Bool) : LadderState :=
  if win then
    if state.wins + 1 = ladder.streak ∧ state.tier < ladder.top then ⟨state.tier + 1, 0, 0⟩
    else ⟨state.tier, state.wins + 1, 0⟩
  else
    if state.losses + 1 = ladder.streak ∧ 0 < state.tier then ⟨state.tier - 1, 0, 0⟩
    else ⟨state.tier, 0, state.losses + 1⟩

def run (ladder : RiskLadder) (state : LadderState) (wins : List Bool) : LadderState :=
  wins.foldl ladder.step state

/-- The state after a history of results, the oldest first. -/
def replay (ladder : RiskLadder) (results : List Float) : LadderState :=
  ladder.run {} (results.map isWin)

theorem top_lt_length (ladder : RiskLadder) : ladder.top < ladder.tiers.length :=
  Nat.sub_lt (List.length_pos_iff.2 ladder.tiers_ne_nil) Nat.one_pos

/-- The risk in percent at a state.  Above the highest tier it is that of the highest. -/
def riskPercent (ladder : RiskLadder) (state : LadderState) : Float :=
  have bound : min state.tier ladder.top < ladder.tiers.length :=
    Nat.lt_of_le_of_lt (Nat.min_le_right ..) ladder.top_lt_length
  ladder.tiers[min state.tier ladder.top]

end RiskLadder

end TradePlan
