import TradePlan.Proofs.NumberOrder
import TradePlan.Proofs.RuleFiles
import TradePlan.Proofs.StoreRuns

/-!
# The first rule at fault

The check goes through the rules once, and remembers the names that it has seen and whether a rule was
selected.  It accepts the sound lists.  Any other list has a shortest beginning that is not sound, and
the check names the last rule of that beginning with the first of its faults: in its fields, in its
name, in its selection.

    check rules = .ok () ↔ IsSound rules
    check rules = .error failure ↔ ∃ before rule after fault,
      rules = before ++ rule :: after ∧ IsSound before ∧ ¬ IsSound (before ++ [rule]) ∧
      IsFirstFault before rule fault ∧ failure = .ruleInvalid rule.name fault.message
-/

namespace TradePlan

namespace Store

/-- The first thing that is wrong with a rule behind others: with its own fields, then with its name
among theirs, then with its selection beside theirs. -/
inductive IsFirstFault (before : List TradingRule) (rule : TradingRule) :
    TradingRule.Fault → Prop where
  | blankName : Text.isBlankText rule.name = true → IsFirstFault before rule .blankName
  | partialPct : Text.isBlankText rule.name = false →
      ¬ (0 ≤ rule.partialPct ∧ rule.partialPct ≤ 100) →
      IsFirstFault before rule (.partialPctOutOfRange rule.partialPct)
  | duplicate : IsSound [rule] → (∃ other ∈ before, other.name = rule.name) →
      IsFirstFault before rule .duplicateName
  | selection : IsSound [rule] → (∀ other ∈ before, other.name ≠ rule.name) →
      rule.selected = true → (∃ other ∈ before, other.selected = true) →
      IsFirstFault before rule .secondSelection

/-! ## Sound lists -/

section

variable {before after rules : List TradingRule} {rule : TradingRule} {fault : TradingRule.Fault}

theorem isSound_of_append (h : IsSound (before ++ after)) : IsSound before where
  names := by
    have hnames := h.names
    rw [List.map_append] at hnames
    exact hnames.of_append_left
  notBlank := fun rule hrule => h.notBlank rule (List.mem_append_left _ hrule)
  percent := fun rule hrule => h.percent rule (List.mem_append_left _ hrule)
  selected := by
    have hselected := h.selected
    rw [List.countP_append] at hselected
    omega

/-- A rule by itself is sound if its fields have no fault. -/
theorem isSound_singleton_iff : IsSound [rule] ↔ rule.fault? = none := by
  rw [fault?_eq_none_iff]
  constructor
  · intro h
    exact ⟨h.notBlank rule List.mem_cons_self, h.percent rule List.mem_cons_self⟩
  · rintro ⟨hblank, hpercent⟩
    exact ⟨by simp, by simpa using hblank, by simpa using hpercent, List.countP_le_length⟩

/-- A rule behind a sound list keeps it sound if it is sound by itself, has a name of its own and is
not a second selection. -/
theorem isSound_concat_iff : IsSound (before ++ [rule]) ↔
    IsSound before ∧ IsSound [rule] ∧ (∀ other ∈ before, other.name ≠ rule.name) ∧
    ¬ (rule.selected = true ∧ ∃ other ∈ before, other.selected = true) := by
  have hnames : ((before ++ [rule]).map TradingRule.name).Nodup ↔
      (before.map TradingRule.name).Nodup ∧ ∀ other ∈ before, other.name ≠ rule.name := by
    simp [List.nodup_append]
  have hselected : (before ++ [rule]).countP TradingRule.selected ≤ 1 ↔
      before.countP TradingRule.selected ≤ 1 ∧
      ¬ (rule.selected = true ∧ ∃ other ∈ before, other.selected = true) := by
    rw [List.countP_append, List.countP_singleton, ← List.countP_pos_iff]
    cases rule.selected <;> grind
  constructor
  · intro h
    have hrule : IsSound [rule] := isSound_singleton_iff.mpr (fault?_eq_none_iff.mpr
      ⟨h.notBlank rule (by simp), h.percent rule (by simp)⟩)
    exact ⟨isSound_of_append h, hrule, (hnames.mp h.names).2, (hselected.mp h.selected).2⟩
  · rintro ⟨hbefore, hrule, hother, hsecond⟩
    exact ⟨hnames.mpr ⟨hbefore.names, hother⟩,
      List.forall_mem_append.mpr ⟨hbefore.notBlank, hrule.notBlank⟩,
      List.forall_mem_append.mpr ⟨hbefore.percent, hrule.percent⟩,
      hselected.mpr ⟨hbefore.selected, hsecond⟩⟩

/-! ## The first fault of a rule -/

theorem IsFirstFault.not_isSound (h : IsFirstFault before rule fault) :
    ¬ IsSound (before ++ [rule]) := by
  rw [isSound_concat_iff, isSound_singleton_iff, fault?_eq_none_iff]
  rintro ⟨-, ⟨hblank, hpercent⟩, hnames, hselected⟩
  cases h with
  | blankName h => exact absurd (hblank.symm.trans h) (by decide)
  | partialPct _ h => exact h hpercent
  | duplicate _ h =>
    obtain ⟨other, hother, hname⟩ := h
    exact hnames other hother hname
  | selection _ _ hrule hother => exact hselected ⟨hrule, hother⟩

/-- A rule has one first fault. -/
theorem IsFirstFault.unique {other : TradingRule.Fault} (h : IsFirstFault before rule fault)
    (hother : IsFirstFault before rule other) : fault = other := by
  have hfields : IsSound [rule] →
      Text.isBlankText rule.name = false ∧ 0 ≤ rule.partialPct ∧ rule.partialPct ≤ 100 := by
    rw [isSound_singleton_iff, fault?_eq_none_iff]
    exact id
  -- of two different faults one asks for sound fields or another name where the other one does not
  cases h <;> cases hother <;> grind

/-- What the rules seen so far leave for the rules behind them: their names, and whether one of them is
selected. -/
structure Remembers (names : List String) (selected : Bool) (before : List TradingRule) : Prop where
  names : ∀ name, name ∈ names ↔ ∃ other ∈ before, other.name = name
  selected : selected = true ↔ ∃ other ∈ before, other.selected = true

variable {names : List String} {selected : Bool} {found : String}

theorem Remembers.concat (h : Remembers names selected before) (rule : TradingRule) :
    Remembers (rule.name :: names) (rule.selected || selected) (before ++ [rule]) where
  names := fun name => by
    rw [List.mem_cons, h.names]
    simp [or_and_right, exists_or, or_comm, eq_comm]
  selected := by
    rw [Bool.or_eq_true, h.selected]
    simp [or_and_right, exists_or, or_comm]

theorem fault?_eq_some_iff : rule.fault? = some fault ↔
    (Text.isBlankText rule.name = true ∧ fault = .blankName) ∨
    (Text.isBlankText rule.name = false ∧ ¬ (0 ≤ rule.partialPct ∧ rule.partialPct ≤ 100) ∧
      fault = .partialPctOutOfRange rule.partialPct) := by
  rw [TradingRule.fault?, ← TradingRule.isPercent_iff]
  cases Text.isBlankText rule.name <;> cases TradingRule.isPercent rule.partialPct <;>
    simp [eq_comm]

/-- **One step of the check**: it stops at a rule with its first fault, and goes on behind a rule that
has none. -/
theorem firstFaultAfter?_cons (h : Remembers names selected before) (rule : TradingRule)
    (rest : List TradingRule) :
    (∃ fault, IsFirstFault before rule fault ∧
      TradingRule.firstFaultAfter? names selected (rule :: rest) = some (rule.name, fault)) ∨
    ((IsSound before → IsSound (before ++ [rule])) ∧
      TradingRule.firstFaultAfter? names selected (rule :: rest) =
        TradingRule.firstFaultAfter? (rule.name :: names) (rule.selected || selected) rest) := by
  rw [TradingRule.firstFaultAfter?]
  cases hfault : rule.fault? with
  | some fault =>
    refine .inl ⟨fault, ?_, rfl⟩
    obtain ⟨hblank, rfl⟩ | ⟨hblank, hpercent, rfl⟩ := fault?_eq_some_iff.mp hfault
    · exact .blankName hblank
    · exact .partialPct hblank hpercent
  | none =>
    have hrule : IsSound [rule] := isSound_singleton_iff.mpr hfault
    by_cases hname : rule.name ∈ names
    · refine .inl ⟨.duplicateName, .duplicate hrule ((h.names _).mp hname), ?_⟩
      simp only [List.contains_eq_mem, hname, decide_true, if_true]
    · have hothers : ∀ other ∈ before, other.name ≠ rule.name := fun other hother hsame =>
        hname ((h.names _).mpr ⟨other, hother, hsame⟩)
      simp only [List.contains_eq_mem, hname, decide_false, Bool.false_eq_true, if_false]
      by_cases hsecond : (rule.selected && selected) = true
      · have hboth := (Bool.and_eq_true _ _).mp hsecond
        refine .inl ⟨.secondSelection, ?_, if_pos hsecond⟩
        exact .selection hrule hothers hboth.1 (h.selected.mp hboth.2)
      · refine .inr ⟨fun hbefore => ?_, if_neg hsecond⟩
        refine isSound_concat_iff.mpr ⟨hbefore, hrule, hothers, fun hboth => hsecond ?_⟩
        rw [Bool.and_eq_true, h.selected]
        exact hboth

/-- **A run of the check** behind a sound list stops at the first rule that ends the soundness. -/
theorem firstFaultAfter?_eq_some_iff (h : Remembers names selected before) (hbefore : IsSound before) :
    TradingRule.firstFaultAfter? names selected rules = some (found, fault) ↔
      ∃ between rule after, rules = between ++ rule :: after ∧ IsSound (before ++ between) ∧
        IsFirstFault (before ++ between) rule fault ∧ found = rule.name := by
  induction rules generalizing names selected before with
  | nil => simp [TradingRule.firstFaultAfter?]
  | cons first rest ih =>
    obtain ⟨other, hother, hstop⟩ | ⟨hsound, hgo⟩ := firstFaultAfter?_cons h first rest
    · rw [hstop]
      constructor
      · intro h
        obtain ⟨rfl, rfl⟩ := Prod.mk.inj (Option.some.inj h)
        exact ⟨[], first, rest, rfl, by simpa using hbefore, by simpa using hother, rfl⟩
      · rintro ⟨between, rule, after, hrules, hbetween, hfault, rfl⟩
        cases between with
        | nil =>
          obtain ⟨rfl, rfl⟩ := List.cons.inj hrules
          rw [List.append_nil] at hfault
          rw [hother.unique hfault]
        | cons next between =>
          obtain ⟨rfl, -⟩ := List.cons.inj hrules
          rw [List.append_cons] at hbetween
          exact absurd (isSound_of_append hbetween) hother.not_isSound
    · rw [hgo, ih (h.concat first) (hsound hbefore)]
      constructor
      · rintro ⟨between, rule, after, rfl, hbetween, hfault, rfl⟩
        rw [← List.append_cons] at hbetween hfault
        exact ⟨first :: between, rule, after, rfl, hbetween, hfault, rfl⟩
      · rintro ⟨between, rule, after, hrules, hbetween, hfault, rfl⟩
        cases between with
        | nil =>
          obtain ⟨rfl, rfl⟩ := List.cons.inj hrules
          rw [List.append_nil] at hfault
          exact absurd (hsound hbefore) hfault.not_isSound
        | cons next between =>
          obtain ⟨rfl, rfl⟩ := List.cons.inj hrules
          rw [List.append_cons] at hbetween hfault
          exact ⟨between, rule, after, rfl, hbetween, hfault, rfl⟩

end

theorem check_eq_error_iff {rules : List TradingRule} {failure : Failure} :
    check rules = .error failure ↔ ∃ name fault,
      TradingRule.firstFault? rules = some (name, fault) ∧
      failure = .ruleInvalid name fault.message := by
  rw [check]
  cases TradingRule.firstFault? rules with
  | none => simp
  | some stop =>
    obtain ⟨name, fault⟩ := stop
    constructor
    · intro h
      exact ⟨name, fault, rfl, (Except.error.inj h).symm⟩
    · rintro ⟨_, _, h, rfl⟩
      obtain ⟨rfl, rfl⟩ := Prod.mk.inj (Option.some.inj h)
      rfl

/-! ## Top theorem -/

/-- **The check is exact and names the first culprit.**  It accepts exactly the sound lists, and of any
other list it names the rule that ends the shortest beginning that is not sound, with the first fault of
that rule.  A percentage that is no number is not one from 0 to 100. -/
theorem check_names_first_culprit (rules : List TradingRule) :
    (check rules = .ok () ↔ IsSound rules) ∧
    (∀ failure, check rules = .error failure ↔
      ∃ before rule after fault, rules = before ++ rule :: after ∧
        IsSound before ∧ ¬ IsSound (before ++ [rule]) ∧
        IsFirstFault before rule fault ∧ failure = .ruleInvalid rule.name fault.message) ∧
    ∀ rule ∈ rules, rule.partialPct.isNaN = true → ¬ IsSound rules := by
  have hremembers : Remembers [] false [] := ⟨by simp, by simp⟩
  have hempty : IsSound [] := ⟨List.nodup_nil, by simp, by simp, by simp⟩
  refine ⟨check_eq_ok_iff, fun failure => ?_, fun rule hrule hnan hsound => ?_⟩
  · simp only [check_eq_error_iff, TradingRule.firstFault?,
      firstFaultAfter?_eq_some_iff hremembers hempty, List.nil_append]
    constructor
    · rintro ⟨_, fault, ⟨before, rule, after, hrules, hbefore, hfault, rfl⟩, rfl⟩
      exact ⟨before, rule, after, fault, hrules, hbefore, hfault.not_isSound, hfault, rfl⟩
    · rintro ⟨before, rule, after, fault, hrules, hbefore, -, hfault, rfl⟩
      exact ⟨rule.name, fault, ⟨before, rule, after, hrules, hbefore, hfault, rfl⟩, rfl⟩
  · have hnumber := isNaN_of_isFinite (Document.isFinite_of_percent (hsound.percent rule hrule))
    rw [hnumber] at hnan
    cases hnan

/-- The third rule takes the name of the first and is selected as well, and the fourth has no name: the
third is named, for its name. -/
theorem check_names_first_culprit_overlap :
    let first : TradingRule := { name := "A", selected := true }
    let other : TradingRule := { name := "B", partialPct := 100 }
    let again : TradingRule := { name := "A", selected := true }
    let blank : TradingRule := { name := " ", partialPct := 0 / 0 }
    check [first, other, again, blank] = .error (.ruleInvalid "A" "duplicate rule name") ∧
    check [first, other] = .ok () ∧ ¬ IsSound [first, other, again, blank] := by
  intro first other again blank
  obtain ⟨-, herror, hnan⟩ := check_names_first_culprit [first, other, again, blank]
  have hsound : ∀ rules ∈ [[first, other], [again]], IsSound rules := by
    have hcheck : ∀ rules ∈ [[first, other], [again]], check rules = .ok () := by decide +kernel
    exact fun rules hrules => check_eq_ok_iff.mp (hcheck rules hrules)
  have hfault : IsFirstFault [first, other] again .duplicateName :=
    .duplicate (hsound _ (by simp)) ⟨first, by simp, rfl⟩
  refine ⟨(herror _).mpr ⟨[first, other], again, [blank], _, rfl, hsound _ (by simp),
    hfault.not_isSound, hfault, rfl⟩, check_eq_ok_iff.mpr (hsound _ (by simp)), ?_⟩
  exact hnan blank (by simp) (by decide +kernel)

end Store

end TradePlan
