import TradePlan.Proofs.Lexing
import TradePlan.Proofs.Mentions

/-!
# Other names of the entry price

Under the policy that reads every alias as the entry price, a formula has the value that it has when
each alias is a variable of its own and is bound to the entry price:

    BindsAliasesToEntry bindings other →
      Formula.evaluate .collapse bindings formula = Formula.evaluate .distinct other formula

The errors are the same too: an error is about the name that is written, not about the one that is
looked up.  What is bound to an alias does not count, and only a whole identifier is an alias.
-/

namespace TradePlan

/-! ## Bindings that differ on aliases -/

/-- The two give every name that is no alias the same value, or none. -/
def AgreeOffAliases (bindings other : Bindings) : Prop :=
  ∀ name, Text.foldCase name ∉ entryAliases → other.get? name = bindings.get? name

/-- The second gives each alias the value that the first gives to the entry price, or none if that
has none, and otherwise agrees with the first. -/
structure BindsAliasesToEntry (bindings other : Bindings) : Prop where
  agree : AgreeOffAliases bindings other
  aliases : ∀ name ∈ entryAliases, other.get? name = bindings.get? "entry"

/-! ## Looking up -/

/-- The names of variables are in small letters. -/
theorem foldCase_of_isVariable {name : String} (h : isVariable name = true) :
    Text.foldCase name = name := by
  rw [isVariable, List.contains_iff_mem] at h
  obtain ⟨documented, -, rfl⟩ := List.mem_map.mp h
  exact Text.foldCase_foldCase documented

theorem canonical_of_mem {name : String} (h : name ∈ entryAliases) :
    AliasPolicy.canonical .collapse name = "entry" :=
  if_pos (List.contains_iff_mem.mpr h)

theorem canonical_of_notMem {name : String} (h : name ∉ entryAliases) (policy : AliasPolicy) :
    policy.canonical name = name := by
  cases policy with
  | collapse => exact if_neg fun hmem => h (List.contains_iff_mem.mp hmem)
  | distinct => rfl

theorem entry_notMem_entryAliases : "entry" ∉ entryAliases := by decide

/-- Binding an alias changes no other name. -/
theorem AgreeOffAliases.insert {bindings other : Bindings} (h : AgreeOffAliases bindings other)
    {short : String} (hshort : short ∈ entryAliases) (value : Float) :
    AgreeOffAliases bindings (other.insert short value) := by
  intro name hname
  have hfold : ∀ short ∈ entryAliases, Text.foldCase short = short := by decide +kernel
  rw [Bindings.get?_insert, if_neg, h name hname]
  intro heq
  rw [heq, hfold short hshort] at hname
  exact hname hshort

theorem AgreeOffAliases.get?_eq {bindings other : Bindings} (h : AgreeOffAliases bindings other)
    {name : String} (hvariable : isVariable name = true) (hname : name ∉ entryAliases) :
    bindings.get? name = other.get? name :=
  (h name (by rwa [foldCase_of_isVariable hvariable])).symm

theorem BindsAliasesToEntry.looksUpAlike {bindings other : Bindings}
    (h : BindsAliasesToEntry bindings other) (name : String) :
    LooksUpAlike .collapse bindings .distinct other name := by
  intro hvariable
  show _ = other.get? name
  by_cases hname : name ∈ entryAliases
  · rw [canonical_of_mem hname, h.aliases name hname]
  · rw [canonical_of_notMem hname, h.agree.get?_eq hvariable hname]

theorem AgreeOffAliases.looksUpAlike {bindings other : Bindings} (h : AgreeOffAliases bindings other)
    (name : String) : LooksUpAlike .collapse bindings .collapse other name := by
  intro hvariable
  by_cases hname : name ∈ entryAliases
  · rw [canonical_of_mem hname]
    exact h.get?_eq (by decide +kernel) entry_notMem_entryAliases
  · rw [canonical_of_notMem hname, h.get?_eq hvariable hname]

/-! ## Top theorem -/

/-- **Reading aliases as the entry price is binding them to it.**  What is bound to an alias does not
count then, and a formula in which an alias occurs only inside longer identifiers has the same value
or error under both policies. -/
theorem evaluate_collapse_eq_distinct (formula : String) (bindings : Bindings) :
    (∀ other, BindsAliasesToEntry bindings other →
      Formula.evaluate .collapse bindings formula = Formula.evaluate .distinct other formula) ∧
    (∀ other, AgreeOffAliases bindings other →
      Formula.evaluate .collapse bindings formula = Formula.evaluate .collapse other formula) ∧
    ∀ tokens, Formula.tokens formula = .ok tokens →
      (∀ name, .identifier name ∈ tokens → ∀ short ∈ entryAliases,
        short.toList <:+: name.toList → name ≠ short) →
      Formula.evaluate .collapse bindings formula = Formula.evaluate .distinct bindings formula := by
  refine ⟨fun other h => ?_, fun other h => ?_, fun tokens htokens hlonger => ?_⟩
  · exact Formula.evaluate_congr fun _ _ name _ => h.looksUpAlike name
  · exact Formula.evaluate_congr fun _ _ name _ => h.looksUpAlike name
  · refine Formula.evaluate_congr fun others hothers name hname _ => ?_
    obtain rfl : tokens = others := Except.ok.inj (htokens.symm.trans hothers)
    have hnone : name ∉ entryAliases := fun hmem =>
      hlonger name hname name hmem (List.infix_refl _) rfl
    rw [canonical_of_notMem hnone, canonical_of_notMem hnone]

/-- With the entry price at 100, `stop_loss - low` has the value that it has with every alias at 100,
also if the stop loss is bound to 7; `my_stop_loss` is no alias and is refused by its own name. -/
theorem evaluate_collapse_eq_distinct_stop_loss :
    let bindings := Bindings.ofList [("entry", 100), ("low", 95)]
    let other := (((bindings.insert "entry_price" 100).insert "stop_loss" 100).insert
      "profit_target" 100).insert "trailing_stop" 100
    BindsAliasesToEntry bindings other ∧
    Formula.evaluate .distinct other "stop_loss - low" = .ok 5 ∧
    Formula.evaluate .collapse bindings "stop_loss - low" = .ok 5 ∧
    Formula.evaluate .collapse (bindings.insert "stop_loss" 7) "stop_loss - low" = .ok 5 ∧
    Formula.tokens "my_stop_loss" = .ok [.identifier "my_stop_loss"] ∧
    "stop_loss".toList <:+: "my_stop_loss".toList ∧
    Formula.evaluate .collapse bindings "my_stop_loss" = .error (.unknownIdentifier "my_stop_loss") := by
  intro bindings other
  have hself : AgreeOffAliases bindings bindings := fun _ _ => rfl
  have hbinds : BindsAliasesToEntry bindings other := by
    refine ⟨(((hself.insert (by decide) 100).insert (by decide) 100).insert (by decide) 100).insert
      (by decide) 100, fun name hname => ?_⟩
    revert name
    decide +kernel
  have htokens : Formula.tokens "stop_loss - low" =
      .ok [.identifier "stop_loss", .operator .sub, .identifier "low"] := by
    have hlow := @Token.reads_name "low" (by decide) [] Token.ends_nil [] Token.reads_nil
    have hsign := Token.reads_sign (c := '-') (by decide) rfl (Token.reads_space hlow)
    have hstop := @Token.reads_name "stop_loss" (by decide) _
      (Token.ends_cons (by decide) (by decide)) _ (Token.reads_space hsign)
    exact Token.tokens_of_reads hstop (by decide) (by decide) (by decide)
  have hlonger : Formula.tokens "my_stop_loss" = .ok [.identifier "my_stop_loss"] :=
    Token.tokens_of_reads
      (@Token.reads_name "my_stop_loss" (by decide) [] Token.ends_nil [] Token.reads_nil)
      (by decide) (by decide) (by decide)
  have hdistinct : Formula.evaluate .distinct other "stop_loss - low" = .ok 5 := by
    refine eq_ok_of_toOption ?_
    rw [Formula.evaluate, htokens]
    decide +kernel
  have hall := evaluate_collapse_eq_distinct "stop_loss - low" bindings
  have hcollapse := (hall.1 other hbinds).trans hdistinct
  have hunchanged := hall.2.1 (bindings.insert "stop_loss" 7) (hself.insert (by decide) 7)
  have hrefused : Formula.evaluate .distinct bindings "my_stop_loss" =
      .error (.unknownIdentifier "my_stop_loss") := by
    have hfunction : Builtin.isName "my_stop_loss" = false := by decide +kernel
    have hvariable : isVariable "my_stop_loss" = false := by decide +kernel
    rw [Formula.evaluate, hlonger, ok_bind, checkNames, nameFault?, hfunction, hvariable]
    rfl
  refine ⟨hbinds, hdistinct, hcollapse, hunchanged.symm.trans hcollapse, hlonger,
    ⟨"my_".toList, [], by decide⟩, ?_⟩
  refine ((evaluate_collapse_eq_distinct "my_stop_loss" bindings).2.2 _ hlonger ?_).trans hrefused
  intro name hname short hshort _
  obtain rfl : name = "my_stop_loss" := by simpa using hname
  revert short
  decide

end TradePlan
