import TradePlan.Proofs.Aliases
import TradePlan.Rule.Levels

/-!
# Stops of the two sides

A stop formula is evaluated with the side of the entry bound under `entry_type`, a name that is no
variable.  What is bound under such a name is never looked up, so it changes neither the value of a
formula nor its error:

    isVariable (Text.foldCase name) = false →
      Formula.evaluate policy (bindings.insert name value) formula =
        Formula.evaluate policy bindings formula          (Formula.evaluate_insert_of_not_isVariable)

Only the default of a stop, and the fallback of the same name, tell a long entry from a short one.
-/

namespace TradePlan

/-! ## Names that are no variables -/

section

variable {policy : AliasPolicy} {bindings : Bindings} {name : String}

/-- A variable is looked up under the name of a variable. -/
theorem isVariable_canonical (h : isVariable name = true) :
    isVariable (policy.canonical name) = true := by
  by_cases hmem : name ∈ entryAliases
  · cases policy with
    | collapse =>
      rw [canonical_of_mem hmem]
      decide +kernel
    | distinct => exact h
  · rwa [canonical_of_notMem hmem]

/-- What is bound under a name that is no variable is not looked up. -/
theorem looksUpAlike_insert (h : isVariable (Text.foldCase name) = false) (value : Float)
    (other : String) : LooksUpAlike policy (bindings.insert name value) policy bindings other := by
  intro hvariable
  have hcanonical : isVariable (policy.canonical other) = true := isVariable_canonical hvariable
  rw [Bindings.get?_insert, if_neg]
  intro hsame
  rw [foldCase_of_isVariable hcanonical] at hsame
  rw [hsame, h] at hcanonical
  cases hcanonical

/-- **What is bound under a name that is no variable changes no value and no error.** -/
theorem Formula.evaluate_insert_of_not_isVariable (h : isVariable (Text.foldCase name) = false)
    (value : Float) (formula : String) :
    Formula.evaluate policy (bindings.insert name value) formula =
      Formula.evaluate policy bindings formula :=
  Formula.evaluate_congr fun _ _ other _ => looksUpAlike_insert h value other

end

/-! ## The stop of a rule -/

/-- What a stop formula may read. -/
def stopBindings (entry low high : Float) : Bindings :=
  .ofList [("entry", entry), ("low", low), ("high", high)]

/-- Whether a stop is the low for a long entry and the high for a short one. -/
def LevelSource.followsSide : LevelSource StopFallback → Bool
  | .default => true
  | .fallback .sideDefault _ => true
  | _ => false

theorem evaluate_stopBindings_insert (policy : AliasPolicy) (entry low high side : Float)
    (formula : String) :
    Formula.evaluate policy ((stopBindings entry low high).insert "entry_type" side) formula =
      Formula.evaluate policy (stopBindings entry low high) formula :=
  Formula.evaluate_insert_of_not_isVariable (by decide +kernel) side formula

/-- A stop is the default for a blank formula, the value of the formula, or the price of the strategy
with the error of the formula; the formula does not read the side. -/
theorem TradingRule.stopLevel_cases (policy : AliasPolicy) (rule : TradingRule)
    (entry low high : Float) :
    (∀ side, rule.stopLevel policy entry side low high =
        ⟨StopFallback.sideDefault.price entry side low high, .default⟩) ∨
      (∃ value, ∀ side, rule.stopLevel policy entry side low high = ⟨value, .formula⟩) ∨
      ∃ error, ∀ side, rule.stopLevel policy entry side low high =
        ⟨rule.stopFallback.price entry side low high, .fallback rule.stopFallback error⟩ := by
  have hlevel : ∀ side, rule.stopLevel policy entry side low high =
      .ofFormula policy ((stopBindings entry low high).insert "entry_type" side.sign) rule.stopLoss
        (StopFallback.sideDefault.price entry side low high) rule.stopFallback
        (rule.stopFallback.price entry side low high) := fun _ => rfl
  by_cases hblank : Text.isBlankText rule.stopLoss = true
  · refine .inl fun side => ?_
    rw [hlevel, Level.ofFormula, if_pos hblank]
  · right
    cases hvalue : Formula.evaluate policy (stopBindings entry low high) rule.stopLoss with
    | ok value =>
      refine .inl ⟨value, fun side => ?_⟩
      rw [hlevel, Level.ofFormula, if_neg hblank, evaluate_stopBindings_insert, hvalue]
    | error error =>
      refine .inr ⟨error, fun side => ?_⟩
      rw [hlevel, Level.ofFormula, if_neg hblank, evaluate_stopBindings_insert, hvalue]

/-! ## Top theorem -/

/-- **A stop formula cannot read the side of the entry.**  Whatever is bound to `entry_type`, a
formula has the value or the error that it has without it.  So the stops of a long and of a short
entry come from the same source, with the same strategy and error, and have the same value, unless
they are the low and the high by default. -/
theorem TradingRule.stopLevel_long_short (policy : AliasPolicy) (rule : TradingRule)
    (entry low high : Float) :
    (∀ side formula,
      Formula.evaluate policy ((stopBindings entry low high).insert "entry_type" side) formula =
        Formula.evaluate policy (stopBindings entry low high) formula) ∧
    let long := rule.stopLevel policy entry .long low high
    let short := rule.stopLevel policy entry .short low high
    long.source = short.source ∧
      if long.source.followsSide then long.value = low ∧ short.value = high
      else long.value = short.value := by
  refine ⟨evaluate_stopBindings_insert policy entry low high, ?_⟩
  intro long short
  rcases rule.stopLevel_cases policy entry low high with hlevel | ⟨value, hlevel⟩ | ⟨error, hlevel⟩
  · have hlong : long = ⟨low, .default⟩ := hlevel .long
    have hshort : short = ⟨high, .default⟩ := hlevel .short
    rw [hlong, hshort]
    exact ⟨rfl, rfl, rfl⟩
  · have hlong : long = ⟨value, .formula⟩ := hlevel .long
    have hshort : short = ⟨value, .formula⟩ := hlevel .short
    rw [hlong, hshort]
    exact ⟨rfl, rfl⟩
  · have hlong : long = ⟨_, .fallback rule.stopFallback error⟩ := hlevel .long
    have hshort : short = ⟨_, .fallback rule.stopFallback error⟩ := hlevel .short
    rw [hlong, hshort]
    refine ⟨rfl, ?_⟩
    generalize rule.stopFallback = strategy
    cases strategy with
    | sideDefault => exact ⟨rfl, rfl⟩
    | _ => rfl

end TradePlan
