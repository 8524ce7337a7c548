import TradePlan.CommandLine.Run
import TradePlan.Proofs.FileTables
import TradePlan.Proofs.StoreRuns

/-!
# Files that a refused operation keeps

The store puts a file only after all that can be refused has been looked at.  So if there is anything
at its path, looking for rules changes nothing, and an operation that fails changes nothing either,
unless the device refuses the file.

    slot ≠ .absent → op.looks → (op.perform path s).2 = s                       (perform_of_looks)
    (op.perform path s).1 = .error failure →
      (op.perform path s).2 = s  or  a put failed                               (perform_of_error)

A selection among rules that can be loaded is never refused by the check, as these have passed it.
On a device where a file is put as a whole or not at all, the files keep what they hold.
-/

namespace TradePlan

namespace Store

/-! ## What is at the path -/

def Operation.looks : Operation → Bool
  | load | find _ | selected => true
  | save _ | select _ => false

variable {σ : Type} [SlotAccess (StateM σ)] {path : String} {s : σ} {slot : Slot}

theorem perform_of_looks (h : Finds s slot) (hslot : slot ≠ .absent) {op : Operation}
    (hop : op.looks = true) : (op.perform path s).2 = s := by
  obtain ⟨result, hload, -⟩ := @run_load_of_ne_absent _ _ path _ _ h hslot
  cases result with
  | error failure =>
    refine congrArg Prod.snd (perform_of_load_error hload ?_)
    rintro others rfl
    cases hop
  | ok rules =>
    cases op with
    | load => exact congrArg Prod.snd (run_bind hload)
    | find name => exact congrArg Prod.snd (run_search hload)
    | selected => exact congrArg Prod.snd (run_search hload)
    | save _ | select _ => cases hop

/-- The state is as it was, or it is what a failed put has left. -/
def IsKept (s after : σ) : Prop :=
  after = s ∨ ∃ written fault,
    (SlotAccess.put written : StateM σ (Option FileFault)).run s = (some fault, after)

theorem isKept_save (h : Finds s slot) {rules : List TradingRule} {failure : Failure}
    (hsave : ((Operation.save rules).perform path s).1 = .error failure) :
    IsKept s ((Operation.save rules).perform path s).2 := by
  rw [perform_save_eq h] at hsave ⊢
  cases hcheck : check rules with
  | error fault => exact .inl rfl
  | ok =>
    simp only [hcheck] at hsave ⊢
    cases hwritten : slot.writeText (Document.write rules) with
    | error fault => exact .inl rfl
    | ok written =>
      simp only [hwritten] at hsave ⊢
      cases hfault : ((SlotAccess.put written : StateM σ (Option FileFault)).run s).1 with
      | none =>
        rw [hfault] at hsave
        cases hsave
      | some fault => exact .inr ⟨written, fault, Prod.ext hfault rfl⟩

/-- **An operation that fails has changed nothing, unless by a put that failed.** -/
theorem perform_of_error (h : Finds s slot) (hslot : slot ≠ .absent) {op : Operation}
    {failure : Failure} (hop : (op.perform path s).1 = .error failure) :
    IsKept s (op.perform path s).2 := by
  cases op with
  | load | find _ | selected => exact .inl (perform_of_looks h hslot rfl)
  | save rules => exact isKept_save h hop
  | select name =>
    obtain ⟨result, hload, -⟩ := @run_load_of_ne_absent _ _ path _ _ h hslot
    cases result with
    | error failure => exact .inl (congrArg Prod.snd (perform_of_load_error hload (by simp)))
    | ok rules =>
      by_cases hname : ∃ rule ∈ rules, rule.name = name
      · rw [perform_select_of_mem hload hname] at hop ⊢
        exact isKept_save h hop
      · exact .inl (congrArg Prod.snd (perform_select_of_not_mem hload hname))

/-- A selection among loaded rules puts them with another one selected. -/
theorem perform_select_eq (h : Finds s slot) (hslot : slot ≠ .absent) {rules : List TradingRule}
    {name : String} (hload : (Operation.load.perform path s).1 = .ok (.rules rules))
    (hname : ∃ rule ∈ rules, rule.name = name) :
    (∃ content, slot = .file content) ∧
      (Operation.select name).perform path s =
        let done := (SlotAccess.put (.file (Document.write (selectIn name rules)).toUTF8) :
          StateM σ (Option FileFault)).run s
        (Answer.ofPut path done.1, done.2) := by
  obtain ⟨result, hresult, hloaded⟩ := @run_load_of_ne_absent _ _ path _ _ h hslot
  cases result with
  | error failure =>
    have herror := (congrArg Prod.fst (run_bind_error hresult)).symm.trans hload
    cases herror
  | ok others =>
    have hrules := (congrArg Prod.fst (run_bind hresult)).symm.trans hload
    cases hrules
    obtain ⟨hsound, content, rfl⟩ := hloaded rules rfl
    refine ⟨⟨content, rfl⟩, ?_⟩
    rw [perform_select_of_mem hresult hname, perform_save_eq h,
      check_eq_ok_iff.mpr (isSound_selectIn hsound name)]
    rfl

end Store

/-! ## Devices -/

section Device

variable {σ : Type} {files : FileAccess (StateM σ)} {path : String} {s : σ}

/-- An operation of the store on the files of a device. -/
def Store.Operation.onFiles (files : FileAccess (StateM σ)) (path : String) (op : Operation) (s : σ) :
    Except Failure Answer × σ :=
  (Command.onStore files path (op.action path)).run s

theorem finds_look (hfiles : files.IsAtomic) (path : String) (s : σ) :
    @Store.Finds σ (files.slotAccess path) s (files.look path s).1 :=
  Prod.ext rfl (hfiles.look path s)

/-- A put that fails has changed nothing at its path. -/
theorem look_of_isKept (hfiles : files.IsAtomic) {after : σ}
    (h : @Store.IsKept σ (files.slotAccess path) s after) :
    (files.look path after).1 = (files.look path s).1 := by
  rcases h with rfl | ⟨written, fault, hput⟩
  · rfl
  · have hput : files.put path written s = (some fault, after) := hput
    have hkept := hfiles.fault path written s fault
    rw [hput] at hkept
    exact hkept rfl

/-! ## Top theorem -/

/-- **What is refused leaves the files as they were.**  Looking for rules and a save that the check
refuses do not touch the device; a selection among rules that can be loaded is carried out, unless the
file cannot be put. -/
theorem look_onFiles_of_refused (hfiles : files.IsAtomic) (hlook : (files.look path s).1 ≠ .absent) :
    (∀ op : Store.Operation, op.looks = true → (op.onFiles files path s).2 = s) ∧
    (∀ (op : Store.Operation) failure, (op.onFiles files path s).1 = .error failure →
      (files.look path (op.onFiles files path s).2).1 = (files.look path s).1) ∧
    (∀ rules failure, Store.check rules = .error failure →
      (Store.Operation.save rules).onFiles files path s = (.error failure, s)) ∧
    (∀ rules name, (Store.Operation.load.onFiles files path s).1 = .ok (.rules rules) →
      (∃ rule ∈ rules, rule.name = name) →
      (((Store.Operation.select name).onFiles files path s).1 = .ok .done ∧
        (files.look path ((Store.Operation.select name).onFiles files path s).2).1 =
          .file (Document.write (Store.selectIn name rules)).toUTF8) ∨
      ∃ fault : FileFault, ((Store.Operation.select name).onFiles files path s).1 =
        .error (.ruleStore path fault.message)) := by
  let _ := files.slotAccess path
  have hfinds := finds_look hfiles path s
  refine ⟨fun op hop => Store.perform_of_looks hfinds hlook hop,
    fun op failure hop => look_of_isKept hfiles (Store.perform_of_error hfinds hlook hop),
    fun rules failure hcheck => ?_, fun rules name hload hname => ?_⟩
  · show (Store.Operation.save rules).perform path s = _
    rw [Store.perform_save_eq hfinds, hcheck]
  · obtain ⟨⟨old, hold⟩, hselect⟩ := Store.perform_select_eq hfinds hlook hload hname
    have hput := hfiles.put path (Document.write (Store.selectIn name rules)) _ s (by rw [hold]; rfl)
    rw [show (Store.Operation.select name).onFiles files path s = _ from hselect]
    cases hfault : (files.put path
        (.file (Document.write (Store.selectIn name rules)).toUTF8) s).1 with
    | none => exact .inl ⟨congrArg (Store.Answer.ofPut path) hfault, hput hfault⟩
    | some fault => exact .inr ⟨fault, congrArg (Store.Answer.ofPut path) hfault⟩

end Device

deriving instance DecidableEq for Slot

/-- A file that is no text is refused and kept; in one that can be loaded the rule is selected. -/
theorem look_onFiles_of_refused_bytes :
    let look := fun table => (FileTable.access.look "rules.json" table).1
    let select := (Store.Operation.select "A").onFiles FileTable.access "rules.json"
    let bytes : FileTable := .ofFiles [("rules.json", ⟨#[0xff]⟩)]
    let rules : FileTable := .ofFiles [("rules.json", "[\x7b\"Name\":\"A\"\x7d]".toUTF8)]
    (select bytes).1 = .error (.ruleStore "rules.json" FileFault.notText.message) ∧
    look (select bytes).2 = .file ⟨#[0xff]⟩ ∧
    (select rules).1 = .ok .done ∧
    look (select rules).2 = .file (Document.write [{ name := "A", selected := true }]).toUTF8 := by
  intro look select bytes rules
  have hbytes : look bytes = .file ⟨#[0xff]⟩ := by decide +kernel
  have hrules : look rules = .file "[\x7b\"Name\":\"A\"\x7d]".toUTF8 := by decide +kernel
  have hrefused : (select bytes).1 = .error (.ruleStore "rules.json" FileFault.notText.message) := by
    decide +kernel
  have hdone : (select rules).1 = .ok .done := by decide +kernel
  have hkept := @look_onFiles_of_refused _ _ "rules.json" bytes FileTable.isAtomic_access
    (by show look bytes ≠ _; rw [hbytes]; exact Slot.noConfusion)
  have hselected := (@look_onFiles_of_refused _ _ "rules.json" rules FileTable.isAtomic_access
    (by show look rules ≠ _; rw [hrules]; exact Slot.noConfusion)).2.2.2 [{ name := "A" }] "A"
    (by decide +kernel) (by simp)
  refine ⟨hrefused, (hkept.2.1 _ _ hrefused).trans hbytes, hdone, ?_⟩
  rcases hselected with ⟨-, hlook⟩ | ⟨fault, herror⟩
  · exact hlook
  · exact absurd (hdone.symm.trans herror) (fun h => nomatch h)

end TradePlan
