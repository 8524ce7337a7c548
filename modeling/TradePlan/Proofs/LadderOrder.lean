import TradePlan.Proofs.Ladder
import TradePlan.Proofs.Tiers

/-!
# Better histories

A history with wins where another has losses never leads to a lower tier.  On the way, the counts of
the two drift apart: one more win may fill a streak early, and the next is then counted from zero.
But the states stay in order, by the tier first and by the count of wins less that of losses second:

    a.height ≤ b.height → (win = true → better = true) →
      (ladder.step a win).height ≤ (ladder.step b better).height              (height_step_le)
    List.Forall₂ (fun x y => isWin x → isWin y) results others →
      (ladder.replay results).tier ≤ (ladder.replay others).tier            (tier_replay_le)
-/

namespace TradePlan

/-- The tier, and how near the next move up is. -/
def LadderState.height (state : LadderState) : Nat ×ₗ Int :=
  toLex (state.tier, (state.wins : Int) - state.losses)

theorem LadderState.height_le_iff {a b : LadderState} :
    a.height ≤ b.height ↔
      a.tier < b.tier ∨ a.tier = b.tier ∧ (a.wins : Int) - a.losses ≤ (b.wins : Int) - b.losses :=
  Prod.Lex.toLex_le_toLex

theorem LadderState.tier_le_of_height_le {a b : LadderState} (h : a.height ≤ b.height) :
    a.tier ≤ b.tier := by
  rcases height_le_iff.mp h with h | h
  · exact Nat.le_of_lt h
  · exact Nat.le_of_eq h.1

namespace RiskLadder

variable {ladder : RiskLadder}

/-! ## One trade -/

theorem height_step_loss_le (state : LadderState) :
    (ladder.step state false).height ≤ state.height := by
  rw [LadderState.height_le_iff, step, if_neg Bool.false_ne_true]
  split <;> dsimp only <;> omega

theorem le_height_step_win (state : LadderState) :
    state.height ≤ (ladder.step state true).height := by
  rw [LadderState.height_le_iff, step, if_pos rfl]
  split <;> dsimp only <;> omega

/-- Wins keep states in order.  At one tier the higher count fills its streak first, and above the
lower state a new count is no less than one that was filled. -/
theorem height_step_win_le {a b : LadderState} (ha : ladder.Holds a) (hb : ladder.Holds b)
    (h : a.height ≤ b.height) : (ladder.step a true).height ≤ (ladder.step b true).height := by
  have hatop := ha.tier_le
  have hbtop := hb.tier_le
  have hbwins := hb.count_lt true
  have hazero := ha.zero
  have hbzero := hb.zero
  simp only [room, LadderState.count, if_true] at hbwins
  rw [LadderState.height_le_iff] at h ⊢
  rw [step, step, if_pos rfl, if_pos rfl]
  split <;> split <;> dsimp only <;> omega

theorem height_step_loss_le_loss {a b : LadderState} (ha : ladder.Holds a) (hb : ladder.Holds b)
    (h : a.height ≤ b.height) : (ladder.step a false).height ≤ (ladder.step b false).height := by
  have halosses := ha.count_lt false
  have hazero := ha.zero
  have hbzero := hb.zero
  simp only [room, LadderState.count, Bool.false_eq_true, if_false] at halosses
  rw [LadderState.height_le_iff] at h ⊢
  rw [step, step, if_neg Bool.false_ne_true, if_neg Bool.false_ne_true]
  split <;> split <;> dsimp only <;> omega

/-- A trade keeps two states in order, unless it is a win for the lower one alone. -/
theorem height_step_le {a b : LadderState} (ha : ladder.Holds a) (hb : ladder.Holds b)
    (h : a.height ≤ b.height) {win better : Bool} (hwin : win = true → better = true) :
    (ladder.step a win).height ≤ (ladder.step b better).height := by
  cases win with
  | true =>
    rw [hwin rfl]
    exact height_step_win_le ha hb h
  | false =>
    cases better with
    | true =>
      calc (ladder.step a false).height ≤ a.height := height_step_loss_le a
        _ ≤ b.height := h
        _ ≤ (ladder.step b true).height := le_height_step_win b
    | false => exact height_step_loss_le_loss ha hb h

/-! ## Histories -/

theorem height_run_le {a b : LadderState} (ha : ladder.Holds a) (hb : ladder.Holds b)
    (h : a.height ≤ b.height) {wins others : List Bool}
    (hwins : List.Forall₂ (fun win better => win = true → better = true) wins others) :
    (ladder.run a wins).height ≤ (ladder.run b others).height := by
  induction hwins generalizing a b with
  | nil => exact h
  | cons hwin _ ih => exact ih (ha.step _) (hb.step _) (height_step_le ha hb h hwin)

/-- Of ascending tiers, a higher one has the greater risk. -/
theorem riskPercent_eq_or_lt {a b : LadderState} (hascending : ladder.tiers.Pairwise (· < ·))
    (h : a.tier ≤ b.tier) :
    ladder.riskPercent a = ladder.riskPercent b ∨ ladder.riskPercent a < ladder.riskPercent b := by
  have htop := ladder.top_lt_length
  have hmin : min a.tier ladder.top ≤ min b.tier ladder.top := by omega
  rw [riskPercent, riskPercent]
  rcases Nat.lt_or_eq_of_le hmin with hlt | heq
  · exact .inr (List.pairwise_iff_getElem.mp hascending _ _ (by omega) (by omega) hlt)
  · left
    congr 1

variable (ladder)

/-! ## Top theorem -/

/-- **Wins in the place of losses never lower the tier**, and so never the risk, if the tiers ascend.
Tiers that are read do. -/
theorem tier_replay_le {results others : List Float}
    (h : List.Forall₂ (fun x y => isWin x = true → isWin y = true) results others) :
    let first := ladder.replay results
    let second := ladder.replay others
    first.tier ≤ second.tier ∧
    (ladder.tiers.Pairwise (· < ·) →
      ladder.riskPercent first = ladder.riskPercent second ∨
        ladder.riskPercent first < ladder.riskPercent second) ∧
    (∀ text, readTiers text = .ok ladder.tiers →
      ladder.tiers.Pairwise (· < ·) ∧ ladder.riskPercent first ≤ ladder.riskPercent second) := by
  intro first second
  have hwins : List.Forall₂ (fun win better => win = true → better = true) (results.map isWin)
      (others.map isWin) := by
    rw [List.forall₂_map_left_iff, List.forall₂_map_right_iff]
    exact h
  have hheight : first.height ≤ second.height :=
    height_run_le ladder.holds_start ladder.holds_start (le_refl _) hwins
  have htier := LadderState.tier_le_of_height_le hheight
  refine ⟨htier, fun hascending => riskPercent_eq_or_lt hascending htier, fun text htext => ?_⟩
  obtain ⟨-, htiers⟩ := readTiers_eq_ok_iff.mp htext
  refine ⟨htiers.ascending, ?_⟩
  rcases riskPercent_eq_or_lt htiers.ascending htier with heq | hlt
  · rw [heq]
    exact double_le_refl (htiers.finite _ (List.getElem_mem _))
  · exact double_le_of_lt hlt

/-- The second trade as a win instead of a loss leads from the middle tier to the top. -/
theorem tier_replay_le_standard :
    let results : List Float := [1, -1, 1, 1, -2]
    let others : List Float := [1, 1, 1, 1, -2]
    List.Forall₂ (fun x y => isWin x = true → isWin y = true) results others ∧
    (standard.replay results).tier ≤ (standard.replay others).tier ∧
    readTiers "0.25, 0.5, 1" = .ok standard.tiers ∧
    standard.riskPercent (standard.replay results) ≤ standard.riskPercent (standard.replay others) := by
  intro results others
  have hwins : List.Forall₂ (fun x y => isWin x = true → isWin y = true) results others := by
    decide +kernel
  have hread : readTiers "0.25, 0.5, 1" = .ok standard.tiers := by decide +kernel
  obtain ⟨htier, -, hrisk⟩ := tier_replay_le standard hwins
  exact ⟨hwins, htier, hread, (hrisk _ hread).2⟩

end RiskLadder

end TradePlan
