import TradePlan.Proofs.NumberOrder
import TradePlan.Proofs.Outcome
import TradePlan.Settings.Basic

/-!
# Tiers

The tiers that are read are the numbers of the list, and they are read if these can be tiers of a
ladder: at least one, each finite and positive, and each less than all that follow it.

    readTiers text = .ok tiers ↔
      readNumbers (tierTexts text) = .ok tiers ∧ AreTiers tiers              (readTiers_eq_ok_iff)

Only neighbours are compared, which is enough because the order is transitive.
-/

namespace TradePlan

def tierTexts (text : String) : List String :=
  (((Text.piecesAt (· == ',') text.toList).map Text.trimChars).filter (· ≠ [])).map String.ofList

/-- Numbers that can be the tiers of a ladder. -/
structure AreTiers (tiers : List Float) : Prop where
  ne_nil : tiers ≠ []
  finite : ∀ x ∈ tiers, x.isFinite = true
  pos : ∀ x ∈ tiers, 0 < x
  ascending : tiers.Pairwise (· < ·)

theorem isAscending_iff_isChain {tiers : List Float} (h : ∀ x ∈ tiers, x.isFinite = true) :
    isAscending tiers = true ↔ tiers.IsChain (· < ·) := by
  induction tiers with
  | nil => simp [isAscending]
  | cons x rest ih =>
    rw [List.forall_mem_cons] at h
    cases rest with
    | nil => simp [isAscending]
    | cons y rest =>
      have hlt := not_le_iff_lt (isNaN_of_isFinite h.1)
        (isNaN_of_isFinite (h.2 y List.mem_cons_self))
      rw [isAscending, List.isChain_cons_cons, ← ih h.2, ← hlt, Bool.and_eq_true, Bool.not_eq_true',
        decide_eq_false_iff_not]

/-- Neighbours tell the order of all tiers. -/
theorem isAscending_iff {tiers : List Float} (h : ∀ x ∈ tiers, x.isFinite = true) :
    isAscending tiers = true ↔ tiers.Pairwise (· < ·) := by
  rw [isAscending_iff_isChain h, List.isChain_iff_pairwise]

theorem readTiers_eq_ok_iff {text : String} {tiers : List Float} :
    readTiers text = .ok tiers ↔
      readNumbers (tierTexts text) = .ok tiers ∧ AreTiers tiers := by
  have hread : readTiers text = (readNumbers (tierTexts text) >>= fun tiers =>
      if tiers = [] then .error .none
      else if tiers.any fun x => !(x.isFinite && decide (0 < x)) then .error .notPositive
      else if !isAscending tiers then .error .notAscending
      else return tiers) := rfl
  rw [hread, bind_eq_ok_iff]
  have husable : ∀ tiers : List Float,
      (tiers.any fun x => !(x.isFinite && decide (0 < x))) = false ↔
        ∀ x ∈ tiers, x.isFinite = true ∧ 0 < x := by
    intro tiers
    rw [List.any_eq_false]
    simp
  constructor
  · rintro ⟨others, hnumbers, hchecks⟩
    split at hchecks
    · cases hchecks
    · next hne =>
      split at hchecks
      · cases hchecks
      · next hany =>
        split at hchecks
        · cases hchecks
        · next hascending =>
          obtain rfl : others = tiers := Except.ok.inj hchecks
          have husable := (husable others).mp (Bool.not_eq_true _ ▸ hany)
          have hfinite : ∀ x ∈ others, x.isFinite = true := fun x hx => (husable x hx).1
          refine ⟨hnumbers, hne, hfinite, fun x hx => (husable x hx).2, ?_⟩
          rw [← isAscending_iff hfinite]
          simpa using hascending
  · rintro ⟨hnumbers, htiers⟩
    refine ⟨tiers, hnumbers, ?_⟩
    have hany := (husable tiers).mpr fun x hx => ⟨htiers.finite x hx, htiers.pos x hx⟩
    have hascending := (isAscending_iff htiers.finite).mpr htiers.ascending
    rw [if_neg htiers.ne_nil, if_neg (by rw [hany]; exact Bool.false_ne_true),
      if_neg (by rw [hascending]; exact Bool.false_ne_true)]
    rfl

end TradePlan
