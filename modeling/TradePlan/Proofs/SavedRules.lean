import TradePlan.Proofs.RuleStore

/-!
# Loading what was saved

A save of rules that pass the check leaves their text at the path, over whatever was there.  A load
after it gives rules that differ from the saved ones in their percentages at most, and gives the saved
rules themselves if and only if their percentages read back; short percentages do.

    save path rules : slot ↦ written       load path : written ↦ written
    load path gives rules ↔ PercentsReadBack rules                                      (load_save)

A save of the loaded rules then writes the same bytes again.
-/

namespace TradePlan

namespace Store

variable {path : String} {rules : List TradingRule} {slot written : Slot}

/-! ## Rules but for their percentages -/

/-- Whether a rule has all that another one has, but for its percentage. -/
def AgreesButPercent (rule other : TradingRule) : Prop :=
  ∃ x, other = { rule with partialPct := x }

theorem agreesButPercent_of_reread? {rule other : TradingRule}
    (h : Document.reread? rule = some other) : AgreesButPercent rule other := by
  obtain ⟨x, -, rfl⟩ := Option.map_eq_some_iff.mp h
  exact ⟨x, rfl⟩

/-- A file holds the rules that it was written from, but for their percentages. -/
theorem agreeButPercent_of_read? {others : List TradingRule} (hrules : IsSound rules)
    (h : Document.read? (Document.write rules) = some others) :
    List.Forall₂ AgreesButPercent rules others := by
  have hfinite : ∀ rule ∈ rules, rule.partialPct.isFinite = true :=
    fun rule hrule => Document.isFinite_of_percent (hrules.percent rule hrule)
  rw [Document.read?_write hfinite, Document.mapM_eq_some_iff_forall₂] at h
  exact h.imp fun _ _ => agreesButPercent_of_reread?

/-- Percentages of few digits read back. -/
theorem percentsReadBack_of_isShort
    (h : ∀ rule ∈ rules, Document.isShort rule.partialPct = true) : PercentsReadBack rules :=
  fun rule hrule => Document.readsBack_of_isShort (h rule hrule)

/-! ## Saving and loading -/

/-- A text that is written is the file at the path. -/
theorem eq_file_of_writeText {text : String} (h : slot.writeText text = .ok written) :
    written = .file text.toUTF8 :=
  (Slot.writeText_eq_ok_iff.mp h).2

/-! ## Top theorem -/

/-- **A load after a save gives the saved rules if their percentages read back, and only then.**  What it
gives agrees with them in order and in all fields but the percentages in any case.  A save of the loaded
rules leaves the same bytes. -/
theorem load_save (path : String) (hcheck : check rules = .ok ())
    (hwritten : slot.writeText (Document.write rules) = .ok written) :
    (save path rules : StoreM Unit).run.run slot = (.ok (), written) ∧
    written = .file (Document.write rules).toUTF8 ∧
    (∃ result, (load path : StoreM (List TradingRule)).run.run written = (result, written) ∧
      (result = .ok rules ↔ PercentsReadBack rules) ∧
      ∀ others, result = .ok others → List.Forall₂ AgreesButPercent rules others) ∧
    (PercentsReadBack rules →
      (do save path (← load path) : StoreM Unit).run.run written = (.ok (), written)) := by
  have hrules : IsSound rules := check_eq_ok_iff.mp hcheck
  obtain rfl := eq_file_of_writeText hwritten
  have hload := @run_load_file path (Document.write rules)
  have hback : loaded path (Document.write rules) = .ok rules ↔ PercentsReadBack rules := by
    rw [loaded_eq_ok_iff, and_iff_left hrules, read?_write_eq_some_iff_percentsReadBack hrules]
  refine ⟨run_save_of_writeText hcheck hwritten, rfl, ⟨_, hload, hback, ?_⟩, ?_⟩
  · intro others hothers
    exact agreeButPercent_of_read? hrules (loaded_eq_ok_iff.mp hothers).1
  · intro hpercents
    rw [hback.mpr hpercents] at hload
    rw [run_bind hload]
    exact run_save_of_writeText hcheck rfl

/-- Quotes, backslashes, control characters and chosen strategies are kept. -/
theorem load_save_escapes :
    let rules : List TradingRule :=
      [{ name := "a \"b\" \\ c", stopLoss := "low\n\t", exitRule := "\u0000\u001f\u007f", partialPct := 33.3,
          selected := true, fallback := { stop := some .sideDefault } },
        { name := "é ∞ 😀", profitTaking := "vwap" }]
    let written := Slot.file (Document.write rules).toUTF8
    check rules = .ok () ∧
    (save "rules.json" rules : StoreM Unit).run.run .absent = (.ok (), written) ∧
    (load "rules.json" : StoreM (List TradingRule)).run.run written = (.ok rules, written) ∧
    (do save "rules.json" (← load "rules.json") : StoreM Unit).run.run written = (.ok (), written) := by
  intro rules written
  have hcheck : check rules = .ok () := by decide +kernel
  have hshort : ∀ rule ∈ rules, Document.isShort rule.partialPct = true := by decide +kernel
  have hpercents := percentsReadBack_of_isShort hshort
  obtain ⟨hsave, -, ⟨result, hload, hresult, -⟩, hagain⟩ :=
    load_save "rules.json" hcheck (show Slot.absent.writeText (Document.write rules) = .ok written from rfl)
  rw [hresult.mpr hpercents] at hload
  exact ⟨hcheck, hsave, hload, hagain hpercents⟩

end Store

end TradePlan
