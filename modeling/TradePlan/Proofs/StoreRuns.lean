import Mathlib.Data.List.Nodup
import Mathlib.Tactic.Tauto
import TradePlan.Store.Basic

/-!
# Runs of the rule store

The check of the store accepts the sound lists of rules.  The operations of the store run in every
state in which there is access to the place for one file: on a slot by itself, and on a device.  Where
looking finds a slot and changes nothing, loading leaves the state as it is, and a save changes it by
one put, for rules that pass the check.

    check rules = .ok () ↔ IsSound rules                                           (check_eq_ok_iff)
    Finds s slot → slot ≠ .absent → (load path).run.run s = (result, s)     (run_load_of_ne_absent)
    Finds s slot → (save rules).perform path s = what the put of the text gives   (perform_save_eq)

Of the other operations only a selection writes, and it does what a save of the selected rules does.
-/

namespace TradePlan

namespace Store

/-! ## What the check accepts -/

/-- Rules with names of their own that are not blank, percentages from 0 to 100 and at most one
selected rule. -/
structure IsSound (rules : List TradingRule) : Prop where
  names : (rules.map TradingRule.name).Nodup
  notBlank : ∀ rule ∈ rules, Text.isBlankText rule.name = false
  percent : ∀ rule ∈ rules, 0 ≤ rule.partialPct ∧ rule.partialPct ≤ 100
  selected : rules.countP TradingRule.selected ≤ 1

theorem fault?_eq_none_iff {rule : TradingRule} :
    rule.fault? = none ↔
      Text.isBlankText rule.name = false ∧ 0 ≤ rule.partialPct ∧ rule.partialPct ≤ 100 := by
  rw [TradingRule.fault?, ← TradingRule.isPercent_iff]
  cases Text.isBlankText rule.name <;> cases TradingRule.isPercent rule.partialPct <;> simp

theorem firstFaultAfter?_eq_none_iff {names : List String} {selected : Bool}
    {rules : List TradingRule} :
    TradingRule.firstFaultAfter? names selected rules = none ↔
      (∀ rule ∈ rules, rule.fault? = none) ∧ (rules.map TradingRule.name).Nodup ∧
      (∀ rule ∈ rules, rule.name ∉ names) ∧
      rules.countP TradingRule.selected + selected.toNat ≤ 1 := by
  induction rules generalizing names selected with
  | nil => cases selected <;> simp [TradingRule.firstFaultAfter?]
  | cons rule rest ih =>
    rw [TradingRule.firstFaultAfter?]
    cases hfault : rule.fault? with
    | some fault => simp [hfault]
    | none =>
      by_cases hname : rule.name ∈ names
      · simp [hname]
      · have hothers : (∀ other ∈ rest, other.name ∉ rule.name :: names) ↔
            rule.name ∉ rest.map TradingRule.name ∧ ∀ other ∈ rest, other.name ∉ names := by
          simp only [List.mem_cons, not_or, List.mem_map, not_exists, not_and]
          exact forall₂_and
        have hcount : rest.countP TradingRule.selected + (rule.selected || selected).toNat ≤ 1 ∧
            ¬ (rule.selected && selected) = true ↔
            (rule :: rest).countP TradingRule.selected + selected.toNat ≤ 1 := by
          rw [List.countP_cons]
          cases rule.selected <;> cases selected <;> simp
        simp only [List.contains_eq_mem, hname, decide_false, Bool.false_eq_true, if_false,
          ite_eq_iff, reduceCtorEq, and_false, false_or, ih, hothers, List.forall_mem_cons, hfault,
          List.map_cons, List.nodup_cons, ← hcount]
        tauto

theorem check_eq_ok_iff {rules : List TradingRule} : check rules = .ok () ↔ IsSound rules := by
  have hnone : check rules = .ok () ↔ TradingRule.firstFault? rules = none := by
    rw [check]
    cases TradingRule.firstFault? rules <;> simp
  rw [hnone, TradingRule.firstFault?, firstFaultAfter?_eq_none_iff]
  simp only [fault?_eq_none_iff]
  constructor
  · rintro ⟨hfaults, hnames, -, hselected⟩
    exact ⟨hnames, fun rule hrule => (hfaults rule hrule).1, fun rule hrule => (hfaults rule hrule).2,
      hselected⟩
  · rintro ⟨hnames, hblank, hpercent, hselected⟩
    exact ⟨fun rule hrule => ⟨hblank rule hrule, hpercent rule hrule⟩, hnames,
      fun rule _ => List.not_mem_nil, hselected⟩

/-- A selection keeps what the check asks for. -/
theorem isSound_selectIn {rules : List TradingRule} (h : IsSound rules) (name : String) :
    IsSound (selectIn name rules) where
  names := by
    rw [selectIn, List.map_map]
    exact h.names
  notBlank := by
    rw [selectIn, List.forall_mem_map]
    exact h.notBlank
  percent := by
    rw [selectIn, List.forall_mem_map]
    exact h.percent
  selected := by
    have hcount := List.nodup_iff_count_le_one.mp h.names name
    rw [List.count, List.countP_map] at hcount
    rw [selectIn, List.countP_map]
    exact hcount

theorem isSound_defaults : IsSound TradingRule.defaults :=
  check_eq_ok_iff.mp (by decide +kernel)

/-! ## Operations -/

inductive Operation where
  | load
  | save (rules : List TradingRule)
  | find (name : String)
  | selected
  | select (name : String)
deriving DecidableEq

inductive Answer where
  | rules (rules : List TradingRule)
  | rule (rule : TradingRule)
  | done
deriving DecidableEq

/-- A rule that was looked for, or the failure if there is none. -/
def Answer.ofRule? (failure : Failure) : Option TradingRule → Except Failure Answer
  | some found => .ok (.rule found)
  | none => .error failure

/-- The answer to an operation that put a file at the path. -/
def Answer.ofPut (path : String) : Option FileFault → Except Failure Answer
  | none => .ok .done
  | some fault => .error (.ruleStore path fault.message)

def Operation.action {m : Type → Type} [Monad m] [SlotAccess m] (path : String) :
    Operation → ExceptT Failure m Answer
  | load => do return .rules (← Store.load path)
  | save rules => do
    Store.save path rules
    return .done
  | find name => do return .rule (← Store.find path name)
  | selected => do return .rule (← Store.selected path)
  | select name => do
    Store.select path name
    return .done

/-- The operation in a state in which there is access to what is at the path. -/
def Operation.perform {σ : Type} [SlotAccess (StateM σ)] (path : String) (op : Operation) (s : σ) :
    Except Failure Answer × σ :=
  (op.action path : StoreT σ Answer).run.run s

/-! ## Steps of a run -/

variable {σ α β : Type}

theorem run_bind {x : StoreT σ α} {f : α → StoreT σ β} {s next : σ} {a : α}
    (h : x.run.run s = (.ok a, next)) : (x >>= f).run.run s = (f a).run.run next := by
  rw [ExceptT.run_bind, StateT.run_bind, h]
  rfl

theorem run_bind_error {x : StoreT σ α} {f : α → StoreT σ β} {s next : σ} {failure : Failure}
    (h : x.run.run s = (.error failure, next)) : (x >>= f).run.run s = (.error failure, next) := by
  rw [ExceptT.run_bind, StateT.run_bind, h]
  rfl

/-- What follows two runs with one end is the same. -/
theorem run_bind_congr {x y : StoreT σ α} {f : α → StoreT σ β} {s next : σ}
    (h : x.run.run s = y.run.run next) : (x >>= f).run.run s = (y >>= f).run.run next := by
  rw [ExceptT.run_bind, ExceptT.run_bind, StateT.run_bind, StateT.run_bind, h]

theorem run_lift (x : StateM σ α) (s : σ) :
    (ExceptT.lift x : StoreT σ α).run.run s = (.ok (x.run s).1, (x.run s).2) := rfl

theorem run_liftM (x : Except Failure α) (s : σ) :
    (liftM x : StoreT σ α).run.run s = (x, s) := by
  cases x <;> rfl

/-! ## Loading and saving -/

variable [SlotAccess (StateM σ)] {path : String} {s next : σ} {slot : Slot}

/-- Looking finds a slot, and changes nothing. -/
def Finds (s : σ) (slot : Slot) : Prop := (SlotAccess.look : StateM σ Slot).run s = (slot, s)

theorem finds_self (slot : Slot) : Finds slot slot := rfl

theorem run_look (h : Finds s slot) : (look : StoreT σ Slot).run.run s = (.ok slot, s) := by
  rw [look, run_lift, h]

theorem run_put (slot : Slot) (s : σ) :
    (put path slot : StoreT σ Unit).run.run s =
      ((match ((SlotAccess.put slot : StateM σ (Option FileFault)).run s).1 with
        | none => .ok ()
        | some fault => .error (.ruleStore path fault.message)),
        ((SlotAccess.put slot : StateM σ (Option FileFault)).run s).2) := by
  rw [put, run_bind (run_lift _ s)]
  cases ((SlotAccess.put slot : StateM σ (Option FileFault)).run s).1 <;> rfl

/-- A save puts the text of the rules if they pass the check and it can be written, and does nothing
else. -/
theorem run_save_eq (h : Finds s slot) (rules : List TradingRule) :
    (save path rules : StoreT σ Unit).run.run s =
      match check rules with
      | .error failure => (.error failure, s)
      | .ok () =>
        match slot.writeText (Document.write rules) with
        | .error fault => (.error (.ruleStore path fault.message), s)
        | .ok written => (put path written : StoreT σ Unit).run.run s := by
  have hchecked := run_liftM (check rules) s
  rw [save]
  cases hcheck : check rules with
  | error failure =>
    rw [hcheck] at hchecked
    exact run_bind_error hchecked
  | ok =>
    rw [hcheck] at hchecked
    rw [run_bind hchecked, run_bind (run_look h)]
    cases slot.writeText (Document.write rules) <;> rfl

def loaded (path text : String) : Except Failure (List TradingRule) :=
  match Document.read? text with
  | none => .error (.ruleStore path documentReason)
  | some rules =>
    match check rules with
    | .ok () => .ok rules
    | .error failure => .error failure

theorem loaded_eq_ok_iff {text : String} {rules : List TradingRule} :
    loaded path text = .ok rules ↔ Document.read? text = some rules ∧ IsSound rules := by
  rw [loaded, ← check_eq_ok_iff]
  cases Document.read? text with
  | none => simp
  | some others =>
    cases hcheck : check others with
    | error failure =>
      simp only [hcheck, reduceCtorEq, Option.some.injEq, false_iff, not_and]
      rintro rfl
      simp [hcheck]
    | ok =>
      simp only [hcheck, Except.ok.injEq, Option.some.injEq, iff_self_and]
      rintro rfl
      exact hcheck

/-- Loading a text leaves it, and gives what it stands for. -/
theorem run_load_of_readText (h : Finds s slot) {text : String} (htext : slot.readText = .ok text) :
    (load path : StoreT σ (List TradingRule)).run.run s = (loaded path text, s) := by
  obtain ⟨content, rfl, -⟩ := Slot.readText_eq_ok_iff.mp htext
  rw [load, run_bind (run_look h), if_pos (show Slot.exists? (.file content) = true from rfl)]
  simp only [htext, loaded]
  cases Document.read? text with
  | none => rfl
  | some rules =>
    have hchecked := run_liftM (check rules) s
    cases hcheck : check rules with
    | error failure =>
      rw [hcheck] at hchecked
      simp only [hcheck]
      exact run_bind_error hchecked
    | ok =>
      rw [hcheck] at hchecked
      simp only [hcheck]
      exact run_bind hchecked

/-- Where nothing can be read, loading fails with the reason. -/
theorem run_load_of_readText_error (h : Finds s slot) (hslot : slot.exists? = true)
    {fault : FileFault} (htext : slot.readText = .error fault) :
    (load path : StoreT σ (List TradingRule)).run.run s =
      (.error (.ruleStore path fault.message), s) := by
  rw [load, run_bind (run_look h), if_pos hslot, htext]
  rfl

/-- Where no file is seen, loading is a save of the default rules. -/
theorem run_load_of_not_exists (h : Finds s slot) (hslot : slot.exists? = false) :
    (load path : StoreT σ (List TradingRule)).run.run s =
      (do
        save path TradingRule.defaults
        return TradingRule.defaults : StoreT σ (List TradingRule)).run.run s := by
  rw [load, run_bind (run_look h), hslot]
  rfl

/-- Loading what is at the path leaves it, and only a file has rules. -/
theorem run_load_of_ne_absent (h : Finds s slot) (hslot : slot ≠ .absent) :
    ∃ result, (load path : StoreT σ (List TradingRule)).run.run s = (result, s) ∧
      ∀ rules, result = .ok rules → IsSound rules ∧ ∃ content, slot = .file content := by
  cases hexists : slot.exists? with
  | false =>
    cases slot with
    | absent => exact absurd rfl hslot
    | unreachable reading writing =>
      -- no file is seen, but the default rules cannot be written either
      have hsave := @run_save_eq _ _ path _ _ h TradingRule.defaults
      rw [check_eq_ok_iff.mpr isSound_defaults] at hsave
      refine ⟨.error (.ruleStore path writing.message), ?_, fun _ h => by cases h⟩
      rw [run_load_of_not_exists h hexists]
      exact run_bind_error hsave
    | unreadable _ _ | directory | file _ => cases hexists
  | true =>
    cases htext : slot.readText with
    | error fault =>
      exact ⟨_, run_load_of_readText_error h hexists htext, fun _ h => by cases h⟩
    | ok text =>
      obtain ⟨content, hcontent, -⟩ := Slot.readText_eq_ok_iff.mp htext
      exact ⟨loaded path text, run_load_of_readText h htext, fun rules hrules =>
        ⟨(loaded_eq_ok_iff.mp hrules).2, content, hcontent⟩⟩

/-! ## One operation -/

/-- What a save does to the state, with its answer. -/
theorem perform_save_eq (h : Finds s slot) (rules : List TradingRule) :
    (Operation.save rules).perform path s =
      match check rules with
      | .error failure => (.error failure, s)
      | .ok () =>
        match slot.writeText (Document.write rules) with
        | .error fault => (.error (.ruleStore path fault.message), s)
        | .ok written =>
          let done := (SlotAccess.put written : StateM σ (Option FileFault)).run s
          (Answer.ofPut path done.1, done.2) := by
  have hsave := @run_save_eq _ _ path _ _ h rules
  cases hcheck : check rules with
  | error failure =>
    rw [hcheck] at hsave
    exact run_bind_error hsave
  | ok =>
    rw [hcheck] at hsave
    cases hwritten : slot.writeText (Document.write rules) with
    | error fault =>
      rw [hwritten] at hsave
      exact run_bind_error hsave
    | ok written =>
      simp only [hwritten, run_put] at hsave ⊢
      generalize (SlotAccess.put written : StateM σ (Option FileFault)).run s = done at hsave ⊢
      rcases done with ⟨_ | fault, after⟩
      · exact run_bind hsave
      · exact run_bind_error hsave

/-- The first loaded rule with a property. -/
def search {m : Type → Type} [Monad m] [SlotAccess m] (path : String) (p : TradingRule → Bool)
    (failure : Failure) : ExceptT Failure m TradingRule := do
  match (← load path).find? p with
  | some rule => return rule
  | none => throw failure

theorem run_search {p : TradingRule → Bool} {failure : Failure} {rules : List TradingRule}
    (hload : (load path : StoreT σ (List TradingRule)).run.run s = (.ok rules, next)) :
    (do return Answer.rule (← search path p failure) : StoreT σ Answer).run.run s =
      (Answer.ofRule? failure (rules.find? p), next) := by
  have hsearch : (search path p failure : StoreT σ TradingRule).run.run s =
      ((match rules.find? p with | some rule => .ok rule | none => .error failure), next) := by
    rw [search, run_bind hload]
    cases rules.find? p <;> rfl
  cases hfind : rules.find? p with
  | none =>
    rw [hfind] at hsearch
    exact run_bind_error hsearch
  | some rule =>
    rw [hfind] at hsearch
    exact run_bind hsearch

/-- A selection among loaded rules is a save of them with another one selected. -/
theorem perform_select_of_mem {rules : List TradingRule} {name : String}
    (hload : (load path : StoreT σ (List TradingRule)).run.run s = (.ok rules, next))
    (hname : ∃ rule ∈ rules, rule.name = name) :
    (Operation.select name).perform path s =
      (Operation.save (selectIn name rules)).perform path next := by
  have hany : (rules.any fun rule => rule.name == name) = true := by simpa using hname
  refine run_bind_congr ?_
  rw [select, run_bind hload, if_pos hany]

theorem perform_select_of_not_mem {rules : List TradingRule} {name : String}
    (hload : (load path : StoreT σ (List TradingRule)).run.run s = (.ok rules, next))
    (hname : ¬ ∃ rule ∈ rules, rule.name = name) :
    (Operation.select name).perform path s = (.error (.ruleNotFound name), next) := by
  have hany : ¬ (rules.any fun rule => rule.name == name) = true := by simpa using hname
  refine run_bind_error ?_
  rw [select, run_bind hload, if_neg hany]
  rfl

theorem perform_of_load_error {failure : Failure}
    (hload : (load path : StoreT σ (List TradingRule)).run.run s = (.error failure, next))
    {op : Operation} (hop : ∀ others, op ≠ .save others) :
    op.perform path s = (.error failure, next) := by
  cases op with
  | load => exact run_bind_error hload
  | save others => exact absurd rfl (hop others)
  | find name => exact run_bind_error (run_bind_error hload)
  | selected => exact run_bind_error (run_bind_error hload)
  | select name => exact run_bind_error (run_bind_error hload)

theorem eq_save_or (op : Operation) :
    (∃ rules, op = .save rules) ∨ ∀ rules, op ≠ .save rules := by
  cases op <;> simp

end Store

end TradePlan
