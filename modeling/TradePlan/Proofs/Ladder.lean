import Mathlib
import TradePlan.Risk.Ladder

/-!
# Spells on the risk ladder

A history falls into spells, its longest runs of wins and of losses.  A spell moves the tier once for
each full streak in it, until the end of the ladder is reached, and what is left of the spell is the
count:

    ladder.run (counting win tier 0) (List.replicate n win) =
      counting win (shifted win tier moves) (n - moves * ladder.streak)   for
      moves = min (n / ladder.streak) (ladder.room win tier)                      (run_replicate)
    (ladder.replay results).tier =
      (spells (results.map (0 ≤ ·))).foldl ladder.tierAfter 0                (replay_eq_of_spells)

Wins and losses are one case: `room` says how far either can move the tier, and a count reaches the
length of a streak only where there is no room.
-/

namespace TradePlan

/-! ## Counts -/

namespace LadderState

/-- The length of the streak of wins or of losses that is under way. -/
def count (state : LadderState) (win : Bool) : Nat := if win then state.wins else state.losses

/-- A state that counts wins or losses. -/
def counting (win : Bool) (tier count : Nat) : LadderState :=
  if win then ⟨tier, count, 0⟩ else ⟨tier, 0, count⟩

@[simp] theorem tier_counting (win : Bool) (tier count : Nat) :
    (counting win tier count).tier = tier := by
  cases win <;> rfl

@[simp] theorem count_counting (win : Bool) (tier count : Nat) :
    (counting win tier count).count win = count := by
  cases win <;> rfl

@[simp] theorem count_counting_not (win : Bool) (tier count : Nat) :
    (counting win tier count).count (!win) = 0 := by
  cases win <;> rfl

end LadderState

open LadderState (counting)

namespace RiskLadder

variable (ladder : RiskLadder)

/-- How far wins or losses can move the tier. -/
def room (win : Bool) (tier : Nat) : Nat := if win then ladder.top - tier else tier

def shifted (win : Bool) (tier n : Nat) : Nat := if win then tier + n else tier - n

theorem room_shifted {win : Bool} {tier n : Nat} (h : n ≤ ladder.room win tier) :
    ladder.room win (shifted win tier n) = ladder.room win tier - n := by
  cases win with
  | true => exact Nat.sub_add_eq ladder.top tier n
  | false => rfl

theorem shifted_shifted (win : Bool) (tier n : Nat) :
    shifted win (shifted win tier n) 1 = shifted win tier (n + 1) := by
  cases win with
  | true => exact Nat.add_assoc tier n 1
  | false => exact Nat.sub_sub tier n 1

theorem shifted_ne {win : Bool} {tier : Nat} (h : 0 < ladder.room win tier) :
    shifted win tier 1 ≠ tier := by
  cases win with
  | true => exact Nat.succ_ne_self tier
  | false => exact Nat.ne_of_lt (Nat.pred_lt (Nat.ne_of_gt h))

/-! ## One trade -/

/-- A trade is counted, and a full streak becomes a move if there is room. -/
theorem step_eq (state : LadderState) (win : Bool) :
    ladder.step state win =
      if state.count win + 1 = ladder.streak ∧ 0 < ladder.room win state.tier then
        counting win (shifted win state.tier 1) 0
      else counting win state.tier (state.count win + 1) := by
  cases win with
  | true => simp [step, room, shifted, counting, LadderState.count]
  | false => simp [step, room, shifted, counting, LadderState.count]

/-- A trade ends the streak of the other kind. -/
theorem count_not_step (state : LadderState) (win : Bool) :
    (ladder.step state win).count (!win) = 0 := by
  rw [step_eq]
  split <;> exact LadderState.count_counting_not _ _ _

/-- A result of which none was counted before is counted from the tier alone. -/
theorem step_of_count_eq_zero {state : LadderState} {win : Bool} (h : state.count win = 0) :
    ladder.step state win = ladder.step (counting win state.tier 0) win := by
  rw [step_eq, step_eq, h, LadderState.count_counting, LadderState.tier_counting]

/-! ## Series of trades -/

theorem run_cons (state : LadderState) (win : Bool) (wins : List Bool) :
    ladder.run state (win :: wins) = ladder.run (ladder.step state win) wins := rfl

theorem run_singleton (state : LadderState) (win : Bool) :
    ladder.run state [win] = ladder.step state win := rfl

theorem run_append (state : LadderState) (wins others : List Bool) :
    ladder.run state (wins ++ others) = ladder.run (ladder.run state wins) others :=
  List.foldl_append

/-- The number of trades that move the tier. -/
def moves (state : LadderState) : List Bool → Nat
  | [] => 0
  | win :: wins =>
    (if (ladder.step state win).tier = state.tier then 0 else 1)
      + moves (ladder.step state win) wins

theorem moves_append (state : LadderState) (wins others : List Bool) :
    ladder.moves state (wins ++ others) =
      ladder.moves state wins + ladder.moves (ladder.run state wins) others := by
  induction wins generalizing state with
  | nil => exact (Nat.zero_add _).symm
  | cons win wins ih => rw [List.cons_append, moves, moves, ih, run_cons, Nat.add_assoc]

/-! ## States that histories lead to -/

/-- The tier is on the ladder, a count is short of a streak where there is room for a move, and wins
and losses are not counted at once. -/
structure Holds (state : LadderState) : Prop where
  tier_le : state.tier ≤ ladder.top
  count_lt : ∀ win, 0 < ladder.room win state.tier → state.count win < ladder.streak
  zero : state.wins = 0 ∨ state.losses = 0

theorem holds_counting {win : Bool} {tier count : Nat} (htier : tier ≤ ladder.top)
    (hcount : 0 < ladder.room win tier → count < ladder.streak) :
    ladder.Holds (counting win tier count) where
  tier_le := by
    rw [LadderState.tier_counting]
    exact htier
  count_lt kind hroom := by
    rw [LadderState.tier_counting] at hroom
    by_cases hkind : kind = win
    · subst hkind
      rw [LadderState.count_counting]
      exact hcount hroom
    · obtain rfl : kind = !win := Bool.eq_not_of_ne hkind
      rw [LadderState.count_counting_not]
      exact ladder.streak_pos
  zero := by
    cases win with
    | true => exact .inr rfl
    | false => exact .inl rfl

theorem holds_start : ladder.Holds {} := @holds_counting ladder true 0 0 (Nat.zero_le _)
  fun _ => ladder.streak_pos

variable {ladder}

theorem Holds.step {state : LadderState} (h : ladder.Holds state) (win : Bool) :
    ladder.Holds (ladder.step state win) := by
  rw [step_eq]
  split
  · next hmove =>
    refine ladder.holds_counting ?_ fun _ => ladder.streak_pos
    have htier := h.tier_le
    have hroom := hmove.2
    cases win <;> simp only [room, shifted, if_true, Bool.false_eq_true, if_false] at hroom ⊢ <;> omega
  · next hmove =>
    refine ladder.holds_counting h.tier_le fun hroom => ?_
    have hlt := h.count_lt win hroom
    have hne : state.count win + 1 ≠ ladder.streak := fun heq => hmove ⟨heq, hroom⟩
    omega

theorem Holds.run {state : LadderState} (h : ladder.Holds state) (wins : List Bool) :
    ladder.Holds (ladder.run state wins) := by
  induction wins generalizing state with
  | nil => exact h
  | cons win wins ih => exact ih (h.step win)

/-- A count reaches the length of a streak at the end of the ladder only. -/
theorem Holds.tier_eq_top {state : LadderState} (h : ladder.Holds state)
    (hwins : ladder.streak ≤ state.wins) : state.tier = ladder.top := by
  have htier := h.tier_le
  have hcount := h.count_lt true
  simp only [room, LadderState.count, if_true] at hcount
  omega

theorem Holds.tier_eq_zero {state : LadderState} (h : ladder.Holds state)
    (hlosses : ladder.streak ≤ state.losses) : state.tier = 0 := by
  have hcount := h.count_lt false
  simp only [room, LadderState.count, Bool.false_eq_true, if_false] at hcount
  omega

variable (ladder)

theorem holds_replay (results : List Float) : ladder.Holds (ladder.replay results) :=
  ladder.holds_start.run _

/-- The counts are of trades. -/
theorem counts_run_le (state : LadderState) (wins : List Bool) :
    (ladder.run state wins).wins + (ladder.run state wins).losses ≤
      state.wins + state.losses + wins.length := by
  induction wins generalizing state with
  | nil => exact Nat.le_refl _
  | cons win wins ih =>
    have hstep : (ladder.step state win).wins + (ladder.step state win).losses ≤
        state.wins + state.losses + 1 := by
      rw [step]
      split <;> split <;> simp only [] <;> omega
    have hrest := ih (ladder.step state win)
    rw [run_cons, List.length_cons]
    omega

end RiskLadder

/-! ## Spells -/

/-- A number of results of one kind, one after the other. -/
structure Spell where
  win : Bool
  length : Nat
deriving DecidableEq

def Spell.toList (spell : Spell) : List Bool := List.replicate spell.length spell.win

/-- The longest runs of wins and of losses. -/
def spells : List Bool → List Spell
  | [] => []
  | win :: wins =>
    match spells wins with
    | [] => [⟨win, 1⟩]
    | spell :: rest =>
      if spell.win = win then ⟨win, spell.length + 1⟩ :: rest else ⟨win, 1⟩ :: spell :: rest

/-- Spells with results in them, each of another kind than the next. -/
def AreMaximal (spells : List Spell) : Prop :=
  (∀ spell ∈ spells, 0 < spell.length) ∧ spells.IsChain fun spell next => spell.win ≠ next.win

theorem flatMap_spells (wins : List Bool) : (spells wins).flatMap Spell.toList = wins := by
  induction wins with
  | nil => rfl
  | cons win wins ih =>
    rw [spells]
    split
    · next heq =>
      rw [heq] at ih
      rw [← ih]
      rfl
    · next spell rest heq =>
      rw [heq, List.flatMap_cons] at ih
      split
      · next hwin =>
        rw [List.flatMap_cons, ← ih, ← hwin]
        rfl
      · rw [List.flatMap_cons, List.flatMap_cons, ih]
        rfl

theorem areMaximal_spells (wins : List Bool) : AreMaximal (spells wins) := by
  induction wins with
  | nil => exact ⟨by simp [spells], .nil⟩
  | cons win wins ih =>
    rw [spells]
    split
    · exact ⟨by simp, .singleton _⟩
    · next spell rest heq =>
      obtain ⟨hpos, hchain⟩ := ih
      rw [heq] at hpos hchain
      rw [List.forall_mem_cons] at hpos
      split
      · next hwin =>
        rw [List.isChain_cons] at hchain
        refine ⟨?_, ?_⟩
        · rw [List.forall_mem_cons]
          exact ⟨Nat.succ_pos _, hpos.2⟩
        · rw [List.isChain_cons, ← hwin]
          exact hchain
      · next hwin =>
        refine ⟨?_, .cons_cons (Ne.symm hwin) hchain⟩
        rw [List.forall_mem_cons, List.forall_mem_cons]
        exact ⟨Nat.one_pos, hpos⟩

theorem AreMaximal.of_concat {earlier : List Spell} {last : Spell}
    (h : AreMaximal (earlier ++ [last])) :
    AreMaximal earlier ∧ 0 < last.length ∧ ∀ spell ∈ earlier.getLast?, spell.win ≠ last.win := by
  obtain ⟨hpos, hchain⟩ := h
  rw [List.isChain_append] at hchain
  refine ⟨⟨fun spell hspell => hpos spell (List.mem_append_left _ hspell), hchain.1⟩,
    hpos last (by simp), fun spell hspell => hchain.2.2 spell hspell last (by simp)⟩

/-! ## One spell -/

namespace RiskLadder

variable (ladder : RiskLadder)

/-- The number of moves in a spell: one for each full streak, while there is room. -/
def movesOf (win : Bool) (tier n : Nat) : Nat := min (n / ladder.streak) (ladder.room win tier)

theorem movesOf_le_room (win : Bool) (tier n : Nat) :
    ladder.movesOf win tier n ≤ ladder.room win tier := Nat.min_le_right _ _

theorem movesOf_mul_le (win : Bool) (tier n : Nat) :
    ladder.movesOf win tier n * ladder.streak ≤ n :=
  Nat.le_trans (Nat.mul_le_mul_right _ (Nat.min_le_left _ _)) (Nat.div_mul_le_self n ladder.streak)

/-- A trade completes a streak if the trades since the last full one are one short of it. -/
theorem streak_dvd_iff (n : Nat) :
    ladder.streak ∣ n + 1 ↔ n - n / ladder.streak * ladder.streak + 1 = ladder.streak := by
  obtain ⟨s, hs⟩ := Nat.exists_eq_add_one_of_ne_zero (Nat.ne_of_gt ladder.streak_pos)
  have hrest : n - n / ladder.streak * ladder.streak = n % ladder.streak := by
    have := Nat.div_add_mod' n ladder.streak
    omega
  rw [hrest, hs, Nat.dvd_iff_mod_eq_zero, Nat.succ_mod_succ_eq_zero_iff, Nat.add_right_cancel_iff]

/-- The next trade of a spell moves the tier if it completes a streak and there is room left. -/
theorem movesOf_succ (win : Bool) (tier n : Nat) :
    ladder.movesOf win tier (n + 1) =
      if n - ladder.movesOf win tier n * ladder.streak + 1 = ladder.streak ∧
          0 < ladder.room win tier - ladder.movesOf win tier n then
        ladder.movesOf win tier n + 1
      else ladder.movesOf win tier n := by
  have hsucc : (n + 1) / ladder.streak =
      n / ladder.streak + if ladder.streak ∣ n + 1 then 1 else 0 := Nat.succ_div
  by_cases hroom : n / ladder.streak < ladder.room win tier
  · have hmoves : ladder.movesOf win tier n = n / ladder.streak := Nat.min_eq_left (by omega)
    rw [hmoves]
    simp only [← ladder.streak_dvd_iff, Nat.sub_pos_iff_lt, hroom, and_true, movesOf, hsucc]
    split
    · exact Nat.min_eq_left hroom
    · exact Nat.min_eq_left (Nat.le_of_lt hroom)
  · have hmoves : ladder.movesOf win tier n = ladder.room win tier := Nat.min_eq_right (by omega)
    rw [hmoves, if_neg (by omega), movesOf, hsucc]
    omega

/-- A spell moves the tier once for each full streak, as long as there is room, and what is left of
it is counted. -/
theorem run_replicate (win : Bool) (tier n : Nat) :
    ladder.run (counting win tier 0) (List.replicate n win) =
      counting win (shifted win tier (ladder.movesOf win tier n))
        (n - ladder.movesOf win tier n * ladder.streak) := by
  induction n with
  | zero => cases win <;> simp [run, movesOf, shifted]
  | succ n ih =>
    have hle := ladder.movesOf_mul_le win tier n
    rw [List.replicate_succ', run_append, ih, run_singleton, step_eq, LadderState.count_counting,
      LadderState.tier_counting, ladder.room_shifted (ladder.movesOf_le_room win tier n),
      movesOf_succ, shifted_shifted]
    split
    · rw [Nat.add_mul]
      congr 1
      omega
    · congr 1
      omega

theorem moves_replicate (win : Bool) (tier n : Nat) :
    ladder.moves (counting win tier 0) (List.replicate n win) = ladder.movesOf win tier n := by
  induction n with
  | zero => simp [moves, movesOf]
  | succ n ih =>
    rw [List.replicate_succ', moves_append, ih, run_replicate, moves, moves, step_eq,
      LadderState.count_counting, LadderState.tier_counting,
      ladder.room_shifted (ladder.movesOf_le_room win tier n), movesOf_succ]
    split
    · next h =>
      rw [LadderState.tier_counting, if_neg (ladder.shifted_ne ?_)]
      rw [ladder.room_shifted (ladder.movesOf_le_room win tier n)]
      exact h.2
    · rw [LadderState.tier_counting, if_pos rfl]
      rfl

/-- A spell of which no result was counted before it moves the tier as one from a new count. -/
theorem run_toList {state : LadderState} {spell : Spell} (h : state.count spell.win = 0)
    (hpos : 0 < spell.length) :
    let n := ladder.movesOf spell.win state.tier spell.length
    ladder.run state spell.toList =
      counting spell.win (shifted spell.win state.tier n) (spell.length - n * ladder.streak) ∧
    ladder.moves state spell.toList = n := by
  intro n
  have hstep := ladder.step_of_count_eq_zero h
  have hrun := ladder.run_replicate spell.win state.tier spell.length
  have hmoves := ladder.moves_replicate spell.win state.tier spell.length
  obtain ⟨m, hm⟩ := Nat.exists_eq_add_one_of_ne_zero (Nat.ne_of_gt hpos)
  rw [hm, List.replicate_succ, ← hm] at hrun hmoves
  rw [Spell.toList, hm, List.replicate_succ, ← hm]
  constructor
  · refine Eq.trans ?_ hrun
    rw [run_cons, run_cons, hstep]
  · refine Eq.trans ?_ hmoves
    rw [moves, moves, hstep, LadderState.tier_counting]

def tierAfter (tier : Nat) (spell : Spell) : Nat :=
  if spell.win then min (ladder.tiers.length - 1) (tier + spell.length / ladder.streak)
  else tier - spell.length / ladder.streak

theorem shifted_movesOf {tier : Nat} (h : tier ≤ ladder.top) (spell : Spell) :
    shifted spell.win tier (ladder.movesOf spell.win tier spell.length) =
      ladder.tierAfter tier spell := by
  have htier : tier ≤ ladder.tiers.length - 1 := h
  rw [movesOf, shifted, room, tierAfter, top]
  split <;> omega

/-! ## Histories -/

/-- None of the kind of the next spell has been counted before it. -/
theorem count_run_flatMap {earlier : List Spell} (hpos : ∀ spell ∈ earlier, 0 < spell.length)
    {win : Bool} (hlast : ∀ spell ∈ earlier.getLast?, spell.win ≠ win) :
    (ladder.run {} (earlier.flatMap Spell.toList)).count win = 0 := by
  rcases List.eq_nil_or_concat earlier with rfl | ⟨front, spell, rfl⟩
  · cases win <;> rfl
  · obtain ⟨n, hn⟩ := Nat.exists_eq_add_one_of_ne_zero
      (Nat.ne_of_gt (hpos spell (by simp)))
    obtain rfl : win = !spell.win :=
      Bool.eq_not_of_ne (Ne.symm (hlast spell (by simp)))
    rw [List.concat_eq_append, List.flatMap_append, List.flatMap_singleton, Spell.toList, hn,
      List.replicate_succ', ← List.append_assoc, run_append, run_singleton]
    exact ladder.count_not_step _ _

/-- What a spell at the end of a history makes of the tier before it. -/
theorem run_concat {earlier : List Spell} {last : Spell} (h : AreMaximal (earlier ++ [last])) :
    let before := ladder.run {} (earlier.flatMap Spell.toList)
    let n := ladder.movesOf last.win before.tier last.length
    ladder.run before last.toList =
      counting last.win (shifted last.win before.tier n) (last.length - n * ladder.streak) ∧
    ladder.moves before last.toList = n := by
  obtain ⟨⟨hpos, -⟩, hlength, hlast⟩ := h.of_concat
  exact ladder.run_toList (ladder.count_run_flatMap hpos hlast) hlength

/-- Of a spell at the end of a history the trades after its moves are counted, and of the other kind
none. -/
theorem count_run_concat {earlier : List Spell} {last : Spell} (h : AreMaximal (earlier ++ [last])) :
    let before := ladder.run {} (earlier.flatMap Spell.toList)
    let n := ladder.moves before last.toList
    n * ladder.streak ≤ last.length ∧
    (ladder.run before last.toList).count last.win = last.length - n * ladder.streak ∧
    (ladder.run before last.toList).count (!last.win) = 0 := by
  intro before n
  obtain ⟨hrun, hmoves⟩ := ladder.run_concat h
  have hle := ladder.movesOf_mul_le last.win before.tier last.length
  rw [← hmoves] at hle hrun
  rw [hrun, LadderState.count_counting, LadderState.count_counting_not]
  exact ⟨hle, rfl, rfl⟩

theorem tier_run_flatMap {spells : List Spell} (h : AreMaximal spells) :
    (ladder.run {} (spells.flatMap Spell.toList)).tier = spells.foldl ladder.tierAfter 0 := by
  induction spells using List.reverseRecOn with
  | nil => rfl
  | append_singleton earlier last ih =>
    rw [List.flatMap_append, List.flatMap_singleton, run_append, (ladder.run_concat h).1,
      LadderState.tier_counting, ladder.shifted_movesOf (ladder.holds_start.run _).tier_le,
      ih h.of_concat.1, List.foldl_append, List.foldl_cons, List.foldl_nil]

/-! ## Top theorem -/

/-- **A history moves the tier by its spells.**  A trade without loss is a win.  A spell of wins moves
the tier up by one for each full streak, at most to the top, and a spell of losses down, at most to
the lowest tier.  Of the last spell the trades after its moves are counted, and of the other kind
none.  A count reaches the length of a streak at the end of the ladder only, no count is greater than
the number of trades, and the risk is that of the tier. -/
theorem replay_eq_of_spells (results : List Float) :
    let spells := spells (results.map fun pnl => decide (0 ≤ pnl))
    let state := ladder.replay results
    (spells.flatMap Spell.toList = results.map (fun pnl => decide (0 ≤ pnl)) ∧ AreMaximal spells) ∧
    state.tier = spells.foldl ladder.tierAfter 0 ∧
    (∀ earlier last, spells = earlier ++ [last] →
      let moves := ladder.moves (ladder.run {} (earlier.flatMap Spell.toList)) last.toList
      moves * ladder.streak ≤ last.length ∧
      state.count last.win = last.length - moves * ladder.streak ∧ state.count (!last.win) = 0) ∧
    state.tier ≤ ladder.tiers.length - 1 ∧
    (ladder.streak ≤ state.wins → state.tier = ladder.tiers.length - 1) ∧
    (ladder.streak ≤ state.losses → state.tier = 0) ∧
    state.wins + state.losses ≤ results.length ∧
    ladder.tiers[state.tier]? = some (ladder.riskPercent state) := by
  intro spells state
  have hspells : spells.flatMap Spell.toList = results.map isWin := flatMap_spells _
  have hmaximal : AreMaximal spells := areMaximal_spells _
  have hholds : ladder.Holds state := ladder.holds_replay results
  have htier := hholds.tier_le
  refine ⟨⟨hspells, hmaximal⟩, ?_, ?_, htier, hholds.tier_eq_top, hholds.tier_eq_zero, ?_, ?_⟩
  · rw [← ladder.tier_run_flatMap hmaximal, hspells]
    rfl
  · intro earlier last hlast
    rw [hlast] at hmaximal hspells
    have hstate : state = ladder.run (ladder.run {} (earlier.flatMap Spell.toList)) last.toList := by
      rw [← run_append, ← List.flatMap_singleton Spell.toList last, ← List.flatMap_append, hspells]
      rfl
    rw [hstate]
    exact ladder.count_run_concat hmaximal
  · exact (ladder.counts_run_le {} (results.map isWin)).trans_eq (by simp)
  · rw [List.getElem?_eq_getElem (Nat.lt_of_le_of_lt htier ladder.top_lt_length)]
    simp only [riskPercent, Nat.min_eq_left htier]

end RiskLadder

end TradePlan
