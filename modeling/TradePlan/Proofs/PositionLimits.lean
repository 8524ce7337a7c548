import TradePlan.Proofs.Counts
import TradePlan.Proofs.LargestPosition

/-!
# Limits of a position in doubles

What a position sized in doubles keeps to.  A volume limits the number of shares exactly if it is a
number; otherwise the position is sized as if no volume were given.  The buying power and the risk
percentage have the same sign, which is all that a number of shares tells of them: two negative ones
give the position of their magnitudes.

    quantity ≤ ⌊volume * f⌋ ↔ volume is a number                            (size_atMost_volume_iff)
    0 < buyingPower ∧ 0 < riskPercent ↔ ¬ (buyingPower < 0 ∧ riskPercent < 0)  (like_signs_of_size)
-/

namespace TradePlan

/-- A fraction above zero and at most one has a mantissa. -/
theorem unpack_of_fraction {f : Float} (hpos : 0 < f) (hle : f ≤ 1) :
    ∃ m e hm, f.toModel.unpack = .finite .positive m e hm := by
  rcases unpack_of_pos hpos with hinfinity | hfinite
  · have hone : place 1 = some (toLex (1, toLex (-52, 2 ^ 52))) := by decide +kernel
    rw [le_iff_place, hone, place, hinfinity] at hle
    exact absurd hle (by simp [placeOf, Prod.Lex.toLex_le_toLex])
  · exact hfinite

namespace SizeRequest

open AmountArithmetic

variable {capFraction : Float} {request : SizeRequest Float} {volume : Float}

/-! ## Volumes -/

/-- The number of shares that a volume limits a position to. -/
def volumeLimit (capFraction volume : Float) : Float := WholeRule.down.round (volume * capFraction)

/-- The limit is a number if the volume is. -/
theorem isNaN_volumeLimit (hpos : 0 < capFraction) (hle : capFraction ≤ 1) (volume : Float) :
    (volumeLimit capFraction volume).isNaN = volume.isNaN := by
  obtain ⟨m, e, hm, hfraction⟩ := unpack_of_fraction hpos hle
  rw [volumeLimit, isNaN_round, isNaN_mul volume hfraction]

theorem double_cap?_eq (hvolume : request.volume = some volume) :
    request.cap? capFraction request.riskLimit =
      if volumeLimit capFraction volume < request.riskLimit then
        some ⟨volumeLimit capFraction volume, capFraction * 100, volume⟩
      else none := by
  rw [cap?, hvolume]
  exact if_congr decide_eq_true_iff rfl rfl

/-- The number of shares is the limit if that is below what the risk allows. -/
theorem double_shares_eq (hvolume : request.volume = some volume) :
    request.shares capFraction = if volumeLimit capFraction volume < request.riskLimit then
      volumeLimit capFraction volume else request.riskLimit := by
  rw [shares, double_cap?_eq hvolume]
  split <;> rfl

theorem quantity_atMost_shares {position : Position Float}
    (h : request.size capFraction = .ok position) :
    0 < request.shares capFraction ∧ AtMost position.quantity (request.shares capFraction) := by
  obtain ⟨-, -, hone, rfl⟩ := (request.size_eq_ok_iff capFraction).mp h
  have hpos : 0 < request.shares capFraction :=
    double_lt_of_lt_of_le (show (0 : Float) < 1 by decide +kernel) (of_decide_eq_true hone)
  exact ⟨hpos, atMost_toUInt64 hpos⟩

theorem atMost_volumeLimit (hvolume : request.volume = some volume)
    (hnumber : (volumeLimit capFraction volume).isNaN = false) {position : Position Float}
    (h : request.size capFraction = .ok position) :
    AtMost position.quantity (volumeLimit capFraction volume) := by
  obtain ⟨hpos, hquantity⟩ := quantity_atMost_shares h
  rw [double_shares_eq hvolume] at hpos hquantity
  split at hquantity
  · exact hquantity
  · next hlimit =>
    rw [if_neg hlimit] at hpos
    have hle : request.riskLimit ≤ volumeLimit capFraction volume := by
      by_contra hle
      exact hlimit ((not_le_iff_lt hnumber (isNaN_of_atMost hquantity)).mp hle)
    exact hquantity.mono hpos hle

/-- A volume that gives no cap has no part in the size. -/
theorem size_of_cap?_eq_none (h : request.cap? capFraction request.riskLimit = none) :
    { request with volume := none }.size capFraction = request.size capFraction := by
  unfold size
  rw [h]
  rfl

/-- **A volume limits a position exactly if it is a number.** -/
theorem size_atMost_volume_iff (hpos : 0 < capFraction) (hle : capFraction ≤ 1)
    (hvolume : request.volume = some volume) {position : Position Float}
    (h : request.size capFraction = .ok position) :
    (AtMost position.quantity (WholeRule.down.round (volume * capFraction)) ↔
      volume.isNaN = false) ∧
    (volume.isNaN = true → { request with volume := none }.size capFraction = .ok position) := by
  have hlimit := isNaN_volumeLimit hpos hle volume
  refine ⟨⟨fun hquantity => ?_, fun hnumber => ?_⟩, fun hnan => ?_⟩
  · rw [← hlimit]
    exact isNaN_of_atMost hquantity
  · exact atMost_volumeLimit hvolume (hlimit.trans hnumber) h
  · rw [← h]
    apply size_of_cap?_eq_none
    rw [double_cap?_eq hvolume, if_neg]
    -- nothing is above what is no number, so the guard that caps the shares does not fire
    intro hlt
    obtain ⟨p, hp, -⟩ := lt_iff_place.mp hlt
    rw [place_eq_none_iff.mpr (hlimit.trans hnan)] at hp
    cases hp

/-- A volume of 5000 limits 200 shares to 50. -/
theorem size_atMost_volume_iff_capped :
    let request : SizeRequest Float := ⟨100, 95, 1, 100000, some 5000, none⟩
    request.size defaultCapFraction = .ok ⟨50, 5000, 250, 1, some ⟨50, 1, 5000⟩⟩ ∧
    AtMost 50 (WholeRule.down.round (5000 * defaultCapFraction)) := by
  intro request
  have h : request.size defaultCapFraction = .ok ⟨50, 5000, 250, 1, some ⟨50, 1, 5000⟩⟩ := by
    decide +kernel
  have hiff := size_atMost_volume_iff (by decide +kernel) (by decide +kernel) rfl h
  exact ⟨h, hiff.1.mpr (by decide +kernel)⟩

/-- A volume that is no number limits nothing. -/
theorem size_exceeds_volume_nan :
    let request : SizeRequest Float := ⟨100, 95, 1, 100000, some (0 / 0), none⟩
    request.size defaultCapFraction = .ok ⟨200, 20000, 1000, 1, none⟩ ∧
    ¬ AtMost 200 (WholeRule.down.round (0 / 0 * defaultCapFraction)) := by
  decide +kernel

/-! ## Signs -/

theorem zero_lt_riskLimit {position : Position Float} (h : request.size capFraction = .ok position) :
    0 < request.riskLimit := by
  have hshares := (quantity_atMost_shares h).1
  cases hvolume : request.volume with
  | none =>
    rw [shares, cap?, hvolume] at hshares
    exact hshares
  | some volume =>
    rw [double_shares_eq hvolume] at hshares
    split at hshares
    · next hlt => exact double_lt_trans hshares hlt
    · exact hshares

/-- The buying power and the risk percentage have the same sign if the risk allows any shares. -/
theorem signum_mul_signum (hrisk : 0 < request.riskPerShare) (hlimit : 0 < request.riskLimit) :
    signum request.buyingPower * signum request.riskPercent = 1 := by
  have hone : (1 : SignType) ≠ 0 := by decide
  have hhundred : signum 100 = 1 := by decide +kernel
  have hrisk : signum request.riskPerShare = 1 := (zero_lt_iff_signum _).mp hrisk
  have hlimit : signum (WholeRule.down.round
      (request.buyingPower * (request.riskPercent / 100) / request.riskPerShare)) = 1 :=
    (zero_lt_iff_signum _).mp hlimit
  have hquotient : signum (request.buyingPower * (request.riskPercent / 100)
      / request.riskPerShare) = 1 :=
    ((signum_round_down _).resolve_left (ne_of_eq_of_ne hlimit hone)).symm.trans hlimit
  have hproduct : signum (request.buyingPower * (request.riskPercent / 100)) = 1 := by
    have h := (signum_div _ (ne_of_eq_of_ne hrisk hone)).resolve_left (ne_of_eq_of_ne hquotient hone)
    rw [hrisk, mul_one] at h
    exact h.symm.trans hquotient
  have hfactors : signum request.buyingPower * signum (request.riskPercent / 100) = 1 :=
    ((signum_mul _ _).resolve_left (ne_of_eq_of_ne hproduct hone)).symm.trans hproduct
  have hpercent : signum (request.riskPercent / 100) = signum request.riskPercent := by
    have hne : signum (request.riskPercent / 100) ≠ 0 := by
      intro hzero
      rw [hzero, mul_zero] at hfactors
      exact hone hfactors.symm
    have h := (signum_div _ (ne_of_eq_of_ne hhundred hone)).resolve_left hne
    rwa [hhundred, mul_one] at h
  rwa [hpercent] at hfactors

/-- Two negative numbers are sized as their magnitudes. -/
theorem size_of_negated {position : Position Float} (h : request.size capFraction = .ok position) :
    { request with
        buyingPower := -request.buyingPower
        riskPercent := -request.riskPercent }.size capFraction =
      .ok { position with riskPercent := -request.riskPercent } := by
  generalize hnegated : { request with
    buyingPower := -request.buyingPower, riskPercent := -request.riskPercent } = negated
  have hlimit : negated.riskLimit = request.riskLimit := by
    rw [← hnegated]
    show WholeRule.down.round (-request.buyingPower * (-request.riskPercent / 100) / _) = _
    rw [double_neg_div, double_neg_mul_neg]
    rfl
  have hshares : negated.shares capFraction = request.shares capFraction := by
    rw [shares, shares, hlimit, ← hnegated]
    rfl
  obtain ⟨hprices, hrisk, hone, rfl⟩ := (request.size_eq_ok_iff capFraction).mp h
  have hfilled : { request.filled capFraction with riskPercent := -request.riskPercent } =
      negated.filled capFraction := by
    rw [filled, filled, hshares, hlimit, ← hnegated]
    rfl
  rw [hfilled, size_eq_ok_iff, hshares, ← hnegated]
  exact ⟨hprices, hrisk, hone, rfl⟩

/-- **A position has positive prices, and a positive buying power and risk percentage unless both are
negative.** -/
theorem like_signs_of_size {position : Position Float} (h : request.size capFraction = .ok position) :
    (0 < request.entry ∧ 0 < request.stop) ∧
    (0 < request.buyingPower ∧ 0 < request.riskPercent ↔
      ¬ (request.buyingPower < 0 ∧ request.riskPercent < 0)) ∧
    { request with
        buyingPower := -request.buyingPower
        riskPercent := -request.riskPercent }.size capFraction =
      .ok { position with riskPercent := -request.riskPercent } := by
  obtain ⟨hprices, hrisk, -, -⟩ := (request.size_eq_ok_iff capFraction).mp h
  have hsigns := signum_mul_signum (of_decide_eq_true hrisk) (zero_lt_riskLimit h)
  have hsame : ∀ s t : SignType, s * t = 1 → (s = 1 ∧ t = 1 ↔ ¬ (s = -1 ∧ t = -1)) := by decide
  refine ⟨⟨of_decide_eq_true hprices.1, of_decide_eq_true hprices.2⟩, ?_, size_of_negated h⟩
  simp only [zero_lt_iff_signum, lt_zero_iff_signum]
  exact hsame _ _ hsigns

/-- A positive buying power and risk percentage. -/
theorem like_signs_of_size_positive :
    let request : SizeRequest Float := ⟨100, 95, 1, 100000, none, none⟩
    request.size defaultCapFraction = .ok ⟨200, 20000, 1000, 1, none⟩ ∧
    0 < request.buyingPower ∧ 0 < request.riskPercent ∧
    SizeRequest.size defaultCapFraction ⟨100, 95, -1, -100000, none, none⟩ =
      .ok ⟨200, 20000, 1000, -1, none⟩ := by
  intro request
  have h : request.size defaultCapFraction = .ok ⟨200, 20000, 1000, 1, none⟩ := by decide +kernel
  obtain ⟨-, hiff, hnegated⟩ := like_signs_of_size h
  obtain ⟨hpower, hpercent⟩ := hiff.mpr (by decide +kernel)
  exact ⟨h, hpower, hpercent, hnegated⟩

/-- A negative buying power and risk percentage give a position too. -/
theorem size_of_negative_power :
    let request : SizeRequest Float := ⟨100, 95, -1, -100000, none, none⟩
    request.size defaultCapFraction = .ok ⟨200, 20000, 1000, -1, none⟩ ∧
    ¬ 0 < request.buyingPower ∧ ¬ 0 < request.riskPercent := by
  decide +kernel

end SizeRequest

end TradePlan
