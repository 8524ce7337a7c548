import TradePlan.Proofs.ShortNumbers
import TradePlan.Proofs.StoreRuns

/-!
# The rule store as a memory of rules

The store reads and writes a file in each operation.  As long as the percentages that are saved read
back, its results are those of a memory that holds the rules themselves: none at first, and the
default rules from the first operation that looks for rules.

    run path ops memory.slot = (answers, after.slot)   for   (answers, after) = runOnMemory ops memory

A file that is written reads as the rules it was written from, and these pass the check again.  What
the check accepts it accepts after a selection too, so a selection is never refused.  That the saved
percentages read back is needed: a load after a save that keeps one of the others tells the two
apart.
-/

namespace TradePlan

namespace Store

/-- The answers to operations one after the other, and the state after them. -/
def runWith {σ : Type} (step : Operation → σ → Except Failure Answer × σ) :
    List Operation → σ → List (Except Failure Answer) × σ
  | [], state => ([], state)
  | op :: ops, state =>
    ((step op state).1 :: (runWith step ops (step op state).2).1,
      (runWith step ops (step op state).2).2)

def run (path : String) : List Operation → Slot → List (Except Failure Answer) × Slot :=
  runWith (Operation.perform path)

/-! ## A memory of rules -/

/-- The rules that were saved last, if any were. -/
abbrev Memory := Option (List TradingRule)

namespace Memory

/-- The rules in a memory; the default rules are put into an empty one. -/
def rules (memory : Memory) : List TradingRule := memory.getD TradingRule.defaults

/-- What is at the path of a store that holds a memory. -/
def slot : Memory → Slot
  | none => .absent
  | some rules => .file (Document.write rules).toUTF8

end Memory

/-- The operation on a memory.  A selection leaves the rules as they are, but for which is selected. -/
def Operation.onMemory : Operation → Memory → Except Failure Answer × Memory
  | load, memory => (.ok (.rules memory.rules), some memory.rules)
  | save rules, memory =>
    match check rules with
    | .ok () => (.ok .done, some rules)
    | .error failure => (.error failure, memory)
  | find name, memory =>
    (Answer.ofRule? (.ruleNotFound name) (memory.rules.find? fun rule => rule.name = name),
      some memory.rules)
  | selected, memory =>
    (Answer.ofRule? .noSelectedRule (memory.rules.find? TradingRule.selected), some memory.rules)
  | select name, memory =>
    if ∃ rule ∈ memory.rules, rule.name = name then
      (.ok .done,
        some (memory.rules.map fun rule => { rule with selected := decide (rule.name = name) }))
    else (.error (.ruleNotFound name), some memory.rules)

def runOnMemory : List Operation → Memory → List (Except Failure Answer) × Memory :=
  runWith Operation.onMemory

/-! ## Percentages that read back -/

def PercentsReadBack (rules : List TradingRule) : Prop :=
  ∀ rule ∈ rules, Document.ReadsBack rule.partialPct

theorem percentsReadBack_defaults : PercentsReadBack TradingRule.defaults := by
  simp only [PercentsReadBack, TradingRule.defaults, List.forall_mem_cons]
  exact ⟨Document.readsBack_zero, Document.readsBack_third, Document.readsBack_third,
    Document.readsBack_zero, by simp⟩

theorem percentsReadBack_selectIn {rules : List TradingRule} (h : PercentsReadBack rules)
    (name : String) : PercentsReadBack (selectIn name rules) := by
  rw [PercentsReadBack, selectIn, List.forall_mem_map]
  exact h

/-- A file that was written from sound rules reads as them if and only if their percentages do. -/
theorem read?_write_eq_some_iff_percentsReadBack {rules : List TradingRule} (h : IsSound rules) :
    Document.read? (Document.write rules) = some rules ↔ PercentsReadBack rules :=
  Document.read?_write_eq_some_iff fun rule hrule =>
    Document.isFinite_of_percent (h.percent rule hrule)

namespace Memory

def IsSound (memory : Memory) : Prop := ∀ rules ∈ memory, Store.IsSound rules

def ReadsBack (memory : Memory) : Prop := ∀ rules ∈ memory, PercentsReadBack rules

theorem rules_of_forall {p : List TradingRule → Prop} (hdefaults : p TradingRule.defaults)
    {memory : Memory} (h : ∀ rules ∈ memory, p rules) : p memory.rules := by
  cases memory with
  | none => exact hdefaults
  | some rules => exact h rules rfl

end Memory

/-- Only saved rules have to read back, and only if the check accepts them. -/
def Operation.ReadsBack : Operation → Prop
  | save rules => check rules = .ok () → PercentsReadBack rules
  | load | find _ | selected | select _ => True

/-! ## Loading and saving -/

theorem fromUTF8?_toUTF8 (text : String) : String.fromUTF8? text.toUTF8 = some text := by
  have hvalid : text.toUTF8.IsValidUTF8 := text.isValidUTF8
  rw [String.fromUTF8?, dif_pos hvalid]
  rfl

variable {path : String}

theorem run_save_of_writeText {rules : List TradingRule} {slot written : Slot}
    (hcheck : check rules = .ok ()) (hwritten : slot.writeText (Document.write rules) = .ok written) :
    (save path rules : StoreM Unit).run.run slot = (.ok (), written) := by
  rw [run_save_eq (finds_self slot), hcheck]
  simp only [hwritten, run_put]
  rfl

theorem run_load_file (text : String) :
    (load path : StoreM (List TradingRule)).run.run (.file text.toUTF8) =
      (loaded path text, .file text.toUTF8) :=
  run_load_of_readText (finds_self _)
    (Slot.readText_eq_ok_iff.mpr ⟨text.toUTF8, rfl, fromUTF8?_toUTF8 text⟩)

/-- Loading puts the default rules into an empty store, and gives sound rules if any.  They are the
saved ones exactly if these read back. -/
theorem run_load {memory : Memory} (h : memory.IsSound) :
    ∃ result, (load path : StoreM (List TradingRule)).run.run memory.slot =
        (result, Memory.slot (some memory.rules)) ∧
      (∀ rules, result = .ok rules → IsSound rules) ∧
      (result = .ok memory.rules ↔ memory.ReadsBack) := by
  cases memory with
  | none =>
    have hcheck : check TradingRule.defaults = .ok () := check_eq_ok_iff.mpr isSound_defaults
    have hsave := @run_save_of_writeText path _ (Memory.slot none) _ hcheck rfl
    refine ⟨.ok TradingRule.defaults, ?_, ?_, ?_⟩
    · rw [run_load_of_not_exists (finds_self _) rfl, run_bind hsave]
      rfl
    · rintro rules ⟨rfl⟩
      exact isSound_defaults
    · simp [Memory.ReadsBack, Memory.rules]
  | some rules =>
    have hrules : IsSound rules := h rules rfl
    refine ⟨loaded path (Document.write rules), run_load_file _, ?_, ?_⟩
    · intro others hothers
      exact (loaded_eq_ok_iff.mp hothers).2
    · have hback : Memory.ReadsBack (some rules) ↔ PercentsReadBack rules := by
        simp [Memory.ReadsBack]
      rw [hback, ← read?_write_eq_some_iff_percentsReadBack hrules, loaded_eq_ok_iff]
      exact and_iff_left hrules

/-! ## One operation -/

/-- What the default rules have and a selection keeps, the rules in a memory keep, as long as saved
rules have it. -/
theorem forall_mem_onMemory {p : List TradingRule → Prop} (hdefaults : p TradingRule.defaults)
    (hselect : ∀ rules name, p rules → p (selectIn name rules)) {op : Operation}
    (hsave : ∀ rules, op = .save rules → check rules = .ok () → p rules) {memory : Memory}
    (h : ∀ rules ∈ memory, p rules) : ∀ rules ∈ (op.onMemory memory).2, p rules := by
  have hrules : p memory.rules := Memory.rules_of_forall hdefaults h
  have hkept : ∀ rules ∈ some memory.rules, p rules := by
    rintro rules ⟨rfl⟩
    exact hrules
  cases op with
  | load => exact hkept
  | save rules =>
    rw [Operation.onMemory]
    split
    · next hcheck =>
      rintro others ⟨rfl⟩
      exact hsave rules rfl hcheck
    · exact h
  | find name => exact hkept
  | selected => exact hkept
  | select name =>
    rw [Operation.onMemory]
    split
    · rintro others ⟨rfl⟩
      exact hselect memory.rules name hrules
    · exact hkept

theorem onMemory_isSound {memory : Memory} (h : memory.IsSound) (op : Operation) :
    (op.onMemory memory).2.IsSound :=
  forall_mem_onMemory isSound_defaults (fun _ name hrules => isSound_selectIn hrules name)
    (fun _ _ hcheck => check_eq_ok_iff.mp hcheck) h

theorem onMemory_readsBack {memory : Memory} (h : memory.ReadsBack) {op : Operation}
    (hop : op.ReadsBack) : (op.onMemory memory).2.ReadsBack :=
  forall_mem_onMemory percentsReadBack_defaults
    (fun _ name hrules => percentsReadBack_selectIn hrules name)
    (by rintro rules rfl hcheck; exact hop hcheck) h

/-- An operation that looks for rules does with the loaded ones what it does with a memory of them.
It leaves what loading left, or writes a selection. -/
theorem perform_of_load {rules : List TradingRule} {slot next : Slot}
    (hload : (load path : StoreM (List TradingRule)).run.run slot = (.ok rules, next))
    (hrules : IsSound rules)
    (hwrite : ∀ text, next.writeText text = .ok (.file text.toUTF8)) {op : Operation}
    (hop : ∀ others, op ≠ .save others) :
    (op.perform path slot = ((op.onMemory (some rules)).1, next) ∧
      (op.onMemory (some rules)).2 = some rules) ∨
    (op.perform path slot = ((op.onMemory (some rules)).1, (op.onMemory (some rules)).2.slot) ∧
      (op.onMemory (some rules)).1 = .ok .done) := by
  cases op with
  | load => exact .inl ⟨run_bind hload, rfl⟩
  | save others => exact absurd rfl (hop others)
  | find name => exact .inl ⟨run_search hload, rfl⟩
  | selected => exact .inl ⟨run_search hload, rfl⟩
  | select name =>
    rw [Operation.onMemory]
    split
    · next hname =>
      have hcheck := check_eq_ok_iff.mpr (isSound_selectIn hrules name)
      exact .inr ⟨(perform_select_of_mem hload hname).trans
        (run_bind (run_save_of_writeText hcheck (hwrite _))), rfl⟩
    · next hname => exact .inl ⟨perform_select_of_not_mem hload hname, rfl⟩

theorem perform_save (rules : List TradingRule) (memory : Memory) :
    (Operation.save rules).perform path memory.slot =
      (((Operation.save rules).onMemory memory).1,
        ((Operation.save rules).onMemory memory).2.slot) := by
  rw [perform_save_eq (finds_self _), Operation.onMemory]
  cases check rules with
  | error failure => rfl
  | ok => cases memory <;> rfl

/-- After each operation a file of sound rules is at the path, or none, whatever the percentages. -/
theorem perform_isSound {memory : Memory} (h : memory.IsSound) (op : Operation) :
    ∃ after : Memory, (op.perform path memory.slot).2 = after.slot ∧ after.IsSound := by
  obtain ⟨rules, rfl⟩ | hop := eq_save_or op
  · exact ⟨_, congrArg Prod.snd (perform_save rules memory), onMemory_isSound h _⟩
  · have hheld : Memory.IsSound (some memory.rules) := onMemory_isSound h .load
    obtain ⟨result, hload, hsound, -⟩ := @run_load path _ h
    cases result with
    | error failure => exact ⟨_, congrArg Prod.snd (perform_of_load_error hload hop), hheld⟩
    | ok rules =>
      have hrules : IsSound rules := hsound rules rfl
      obtain ⟨hperform, -⟩ | ⟨hperform, -⟩ := perform_of_load hload hrules (fun _ => rfl) hop
      · exact ⟨_, congrArg Prod.snd hperform, hheld⟩
      · refine ⟨_, congrArg Prod.snd hperform, onMemory_isSound ?_ op⟩
        rintro others ⟨rfl⟩
        exact hrules

/-- If the percentages in a memory read back, an operation of the store is one on the memory. -/
theorem perform_eq_onMemory {memory : Memory} (h : memory.IsSound) (hback : memory.ReadsBack)
    (op : Operation) :
    op.perform path memory.slot = ((op.onMemory memory).1, (op.onMemory memory).2.slot) := by
  obtain ⟨rules, rfl⟩ | hop := eq_save_or op
  · exact perform_save rules memory
  · have hsame : op.onMemory (some memory.rules) = op.onMemory memory := by
      cases op with
      | save rules => exact absurd rfl (hop rules)
      | load | find _ | selected | select _ => rfl
    obtain ⟨result, hload, hsound, hresult⟩ := @run_load path _ h
    rw [hresult.mpr hback] at hload hsound
    rw [← hsame]
    obtain ⟨hperform, hafter⟩ | ⟨hperform, -⟩ :=
      perform_of_load hload (hsound _ rfl) (fun _ => rfl) hop
    · rw [hperform, hafter]
    · exact hperform

/-! ## Sequences of operations -/

theorem run_isSound {memory : Memory} (h : memory.IsSound) (ops : List Operation) :
    ∃ after : Memory, (run path ops memory.slot).2 = after.slot ∧ after.IsSound := by
  induction ops generalizing memory with
  | nil => exact ⟨memory, rfl, h⟩
  | cons op ops ih =>
    obtain ⟨next, hnext, hsound⟩ := perform_isSound h op
    obtain ⟨after, hafter, hkept⟩ := ih hsound
    refine ⟨after, ?_, hkept⟩
    show (run path ops (op.perform path memory.slot).2).2 = after.slot
    rw [hnext]
    exact hafter

/-- A sequence begins with an operation on the memory and goes on from there. -/
theorem run_cons_eq {memory : Memory} (h : memory.IsSound) (hback : memory.ReadsBack)
    (op : Operation) (ops : List Operation) :
    run path (op :: ops) memory.slot =
      ((op.onMemory memory).1 :: (run path ops (op.onMemory memory).2.slot).1,
        (run path ops (op.onMemory memory).2.slot).2) := by
  show ((op.perform path memory.slot).1 :: (run path ops (op.perform path memory.slot).2).1,
    (run path ops (op.perform path memory.slot).2).2) = _
  rw [perform_eq_onMemory h hback op]

theorem run_eq_runOnMemory {memory : Memory} (h : memory.IsSound) (hback : memory.ReadsBack)
    {ops : List Operation} (hops : ∀ op ∈ ops, op.ReadsBack) :
    run path ops memory.slot =
      ((runOnMemory ops memory).1, (runOnMemory ops memory).2.slot) := by
  induction ops generalizing memory with
  | nil => rfl
  | cons op ops ih =>
    rw [List.forall_mem_cons] at hops
    rw [run_cons_eq h hback, ih (onMemory_isSound h op) (onMemory_readsBack hback hops.1) hops.2]
    rfl

theorem runOnMemory_kept {memory : Memory} (h : memory.IsSound) (hback : memory.ReadsBack)
    {ops : List Operation} (hops : ∀ op ∈ ops, op.ReadsBack) :
    (runOnMemory ops memory).2.IsSound ∧ (runOnMemory ops memory).2.ReadsBack := by
  induction ops generalizing memory with
  | nil => exact ⟨h, hback⟩
  | cons op ops ih =>
    rw [List.forall_mem_cons] at hops
    exact ih (onMemory_isSound h op) (onMemory_readsBack hback hops.1) hops.2

/-- A load tells a file from the memory of its rules unless their percentages read back. -/
theorem readsBack_of_run_load {memory : Memory} (h : memory.IsSound)
    (hsame : (run path [.load] memory.slot).1 = (runOnMemory [.load] memory).1) :
    memory.ReadsBack := by
  obtain ⟨result, hload, -, hresult⟩ := @run_load path _ h
  refine hresult.mp ?_
  have hanswer : (Operation.load.perform path memory.slot).1 = .ok (.rules memory.rules) :=
    List.head_eq_of_cons_eq hsame
  cases result with
  | error failure =>
    rw [perform_of_load_error hload (by simp)] at hanswer
    cases hanswer
  | ok rules =>
    have hperform : Operation.load.perform path memory.slot = _ := run_bind hload
    rw [hperform] at hanswer
    cases hanswer
    rfl

/-- If a load after each beginning of the sequence gives what the memory holds, then all that is
saved reads back. -/
theorem readsBack_of_run {memory : Memory} (h : memory.IsSound) {ops : List Operation}
    (hsame : ∀ start, start <+: ops →
      (run path (start ++ [.load]) memory.slot).1 = (runOnMemory (start ++ [.load]) memory).1) :
    memory.ReadsBack ∧ ∀ op ∈ ops, op.ReadsBack := by
  have hback : memory.ReadsBack := readsBack_of_run_load h (hsame [] List.nil_prefix)
  refine ⟨hback, ?_⟩
  induction ops generalizing memory with
  | nil => simp
  | cons op ops ih =>
    have hnext : ∀ start, start <+: ops →
        (run path (start ++ [.load]) (op.onMemory memory).2.slot).1 =
          (runOnMemory (start ++ [.load]) (op.onMemory memory).2).1 := by
      intro start hstart
      have hcons := hsame (op :: start) (List.cons_prefix_cons.mpr ⟨rfl, hstart⟩)
      rw [List.cons_append, run_cons_eq h hback] at hcons
      exact List.tail_eq_of_cons_eq hcons
    have hsound := onMemory_isSound h op
    have hafter : (op.onMemory memory).2.ReadsBack :=
      readsBack_of_run_load hsound (hnext [] List.nil_prefix)
    rw [List.forall_mem_cons]
    refine ⟨?_, ih hsound hnext hafter⟩
    cases op with
    | save rules =>
      intro hcheck
      rw [Operation.onMemory, hcheck] at hafter
      exact hafter rules rfl
    | load | find _ | selected | select _ => trivial

/-! ## Selections -/

/-- Only a save or a selection that succeeds changes the rules. -/
theorem onMemory_of_ne_done {rules : List TradingRule} {op : Operation}
    (h : (op.onMemory (some rules)).1 ≠ .ok .done) : (op.onMemory (some rules)).2 = some rules := by
  cases op with
  | load | find _ | selected => rfl
  | save others =>
    rw [Operation.onMemory] at h ⊢
    split
    · next hcheck =>
      rw [hcheck] at h
      exact absurd rfl h
    · rfl
  | select name =>
    rw [Operation.onMemory] at h ⊢
    split
    · next hname =>
      rw [if_pos hname] at h
      exact absurd rfl h
    · rfl

theorem run_of_not_done {rules : List TradingRule} (h : Memory.IsSound (some rules))
    (hback : Memory.ReadsBack (some rules)) {ops : List Operation}
    (hdone : .ok .done ∉ (run path ops (Memory.slot (some rules))).1) :
    (run path ops (Memory.slot (some rules))).2 = Memory.slot (some rules) := by
  induction ops with
  | nil => rfl
  | cons op ops ih =>
    rw [run_cons_eq h hback, List.mem_cons, not_or] at hdone
    have hkept := onMemory_of_ne_done (Ne.symm hdone.1)
    rw [hkept] at hdone
    rw [run_cons_eq h hback, hkept]
    exact ih hdone.2

theorem onMemory_selected_selectIn {rules : List TradingRule} {name : String}
    (h : ∃ rule ∈ rules, rule.name = name) :
    ∃ found, found.name = name ∧
      Operation.selected.onMemory (some (selectIn name rules)) =
        (.ok (.rule found), some (selectIn name rules)) := by
  obtain ⟨rule, hrule, rfl⟩ := h
  have hsome : ((selectIn rule.name rules).find? TradingRule.selected).isSome := by
    rw [List.find?_isSome, selectIn]
    exact ⟨_, List.mem_map_of_mem hrule, by simp⟩
  obtain ⟨found, hfound⟩ := Option.isSome_iff_exists.mp hsome
  refine ⟨found, ?_, ?_⟩
  · obtain ⟨other, -, rfl⟩ := List.mem_map.mp (List.mem_of_find?_eq_some hfound)
    simpa using List.find?_some hfound
  · show (Answer.ofRule? _ ((selectIn rule.name rules).find? _), _) = _
    rw [hfound]
    rfl

/-- What is selected stays selected until rules are written again. -/
theorem selected_after_select {memory : Memory} (h : memory.IsSound) (hback : memory.ReadsBack)
    {name : String} {selection : Slot}
    (hselect : (Operation.select name).perform path memory.slot = (.ok .done, selection))
    {ops : List Operation} (hdone : .ok .done ∉ (run path ops selection).1) :
    ∃ found, found.name = name ∧
      Operation.selected.perform path (run path ops selection).2 =
        (.ok (.rule found), (run path ops selection).2) := by
  have hsound := onMemory_isSound h (.select name)
  have hkept := @onMemory_readsBack _ hback (.select name) trivial
  rw [perform_eq_onMemory h hback] at hselect
  rw [Operation.onMemory] at hselect hsound hkept
  split at hselect
  · next hname =>
    rw [if_pos hname] at hsound hkept
    obtain ⟨found, hfound, hselected⟩ := onMemory_selected_selectIn hname
    obtain rfl := (Prod.mk.inj hselect).2
    refine ⟨found, hfound, ?_⟩
    rw [run_of_not_done hsound hkept hdone, perform_eq_onMemory hsound hkept]
    exact congrArg (fun p => (p.1, Memory.slot p.2)) hselected
  · cases (Prod.mk.inj hselect).1

/-! ## Top theorem -/

/-- **The store is a memory of rules where the saved percentages read back, and nowhere else.**  The
answers are those of the memory after each beginning of the operations, with a load behind it,
exactly if all that is saved reads back.  Whatever is saved, the rules at the path are sound; and the
selected rule is the one that was selected last, until rules are written again. -/
theorem run_eq_iff_readsBack (path : String) {memory : Memory} (h : memory.IsSound) :
    (∀ ops, (memory.ReadsBack ∧ ∀ op ∈ ops, op.ReadsBack) ↔
      ∀ start, start <+: ops →
        (run path (start ++ [.load]) memory.slot).1 =
          (runOnMemory (start ++ [.load]) memory).1) ∧
    (∀ ops, memory.ReadsBack → (∀ op ∈ ops, op.ReadsBack) →
      run path ops memory.slot =
        ((runOnMemory ops memory).1, (runOnMemory ops memory).2.slot)) ∧
    (∀ ops, ∃ after : Memory, (run path ops memory.slot).2 = after.slot ∧ after.IsSound) ∧
    (∀ ops name later selection, memory.ReadsBack → (∀ op ∈ ops, op.ReadsBack) →
      (Operation.select name).perform path (run path ops memory.slot).2 = (.ok .done, selection) →
      .ok .done ∉ (run path later selection).1 →
      ∃ found, found.name = name ∧
        Operation.selected.perform path (run path later selection).2 =
          (.ok (.rule found), (run path later selection).2)) := by
  refine ⟨fun ops => ⟨?_, readsBack_of_run h⟩, fun ops hback hops => run_eq_runOnMemory h hback hops,
    run_isSound h, ?_⟩
  · rintro ⟨hback, hops⟩ start hstart
    have hstarted : ∀ op ∈ start ++ [.load], op.ReadsBack := by
      intro op hop
      rcases List.mem_append.mp hop with hop | hop
      · exact hops op (hstart.subset hop)
      · obtain rfl := List.mem_singleton.mp hop
        trivial
    rw [run_eq_runOnMemory h hback hstarted]
  · intro ops name later selection hback hops hselect hdone
    rw [run_eq_runOnMemory h hback hops] at hselect
    obtain ⟨hsound, hkept⟩ := runOnMemory_kept h hback hops
    exact selected_after_select hsound hkept hselect hdone

/-- The selection of a rule whose percentage reads back is carried out, and stays while another rule is
looked for. -/
theorem run_eq_iff_readsBack_selection :
    let path := "rules.json"
    let rule : TradingRule := { name := "A", partialPct := 33.3 }
    let chosen : TradingRule := { name := "A", partialPct := 33.3, selected := true }
    (run path [.select "A", .selected] (Memory.slot (some [rule]))).1 =
      [.ok .done, .ok (.rule chosen)] ∧
    ∃ found, found.name = "A" ∧
      (Operation.selected.perform path (run path [.find "B"] (Memory.slot (some [chosen]))).2).1 =
        .ok (.rule found) := by
  intro path rule chosen
  have hsound : ∀ rules ∈ [[rule], [chosen]], Memory.IsSound (some rules) := by
    have hcheck : ∀ rules ∈ [[rule], [chosen]], check rules = .ok () := by decide +kernel
    rintro rules hrules _ ⟨rfl⟩
    exact check_eq_ok_iff.mp (hcheck _ hrules)
  have hback : ∀ rules ∈ [[rule], [chosen]], Memory.ReadsBack (some rules) := by
    simp only [Memory.ReadsBack, Option.mem_some_iff, forall_eq', List.forall_mem_cons,
      PercentsReadBack]
    simp [rule, chosen, Document.readsBack_third]
  have htop := run_eq_iff_readsBack path (hsound [rule] (by simp))
  have honMemory : (Operation.select "A").onMemory (some [rule]) = (.ok .done, some [chosen]) := by
    decide +kernel
  refine ⟨?_, ?_⟩
  · rw [htop.2.1 _ (hback [rule] (by simp)) (by simp [Operation.ReadsBack])]
    decide +kernel
  · have hselect := @perform_eq_onMemory path _ (hsound [rule] (by simp)) (hback [rule] (by simp))
      (.select "A")
    rw [honMemory] at hselect
    have hdone : .ok .done ∉ (run path [.find "B"] (Memory.slot (some [chosen]))).1 := by
      rw [run_eq_runOnMemory (hsound [chosen] (by simp)) (hback [chosen] (by simp))
        (by simp [Operation.ReadsBack])]
      decide +kernel
    obtain ⟨found, hname, hselected⟩ :=
      htop.2.2.2 [] "A" [.find "B"] _ (hback [rule] (by simp)) (by simp) hselect hdone
    exact ⟨found, hname, congrArg Prod.fst hselected⟩

/-- A percentage with sixteen digits is another one when it is loaded. -/
theorem run_load_changes_percentage :
    let rule : TradingRule := { name := "A", partialPct := 91.66666666666667 }
    let other : TradingRule := { name := "A", partialPct := 91.66666666666669 }
    (run "rules.json" [.save [rule], .load] (Memory.slot none)).1 =
      [.ok .done, .ok (.rules [other])] ∧
    (runOnMemory [.save [rule], .load] none).1 = [.ok .done, .ok (.rules [rule])] ∧
    other ≠ rule := by
  intro rule other
  have hcheck : check [rule] = .ok () ∧ check [other] = .ok () := by
    decide +kernel
  have hchars : Document.numberLayout.chars rule.partialPct = "91.66666666666667".toList := by
    decide +kernel
  have hvalue : Json.numberValue? "91.66666666666667".toList = some other.partialPct := by
    rw [@Json.numberValue?_point _ "91".toList "66666666666667".toList 91 9166666666666667
      (by decide +kernel) (by decide +kernel) (by decide +kernel) (by decide +kernel)]
    decide +kernel
  have hread : Document.read? (Document.write [rule]) = some [other] := by
    rw [Document.read?_write (by decide +kernel)]
    simp only [List.mapM_cons, List.mapM_nil, Document.reread?, hchars, hvalue]
    rfl
  have hnone : Memory.IsSound none ∧ Memory.ReadsBack none := by
    simp [Memory.IsSound, Memory.ReadsBack]
  have hload : (load "rules.json" : StoreM (List TradingRule)).run.run (Memory.slot (some [rule])) =
      (.ok [other], Memory.slot (some [rule])) := by
    rw [Memory.slot, run_load_file, loaded_eq_ok_iff.mpr ⟨hread, check_eq_ok_iff.mp hcheck.2⟩]
  refine ⟨?_, by decide +kernel, by decide +kernel⟩
  rw [run_cons_eq hnone.1 hnone.2, Operation.onMemory, hcheck.1]
  show [_, (Operation.load.perform "rules.json" (Memory.slot (some [rule]))).1] = _
  rw [show Operation.load.perform "rules.json" (Memory.slot (some [rule])) = _ from run_bind hload]
  rfl

end Store

end TradePlan
