import Mathlib
import TradePlan.Position.Size

/-!
# The largest position

Over exact rationals a position has the largest whole number of shares that keeps within the risk and
the volume, or the largest count of shares if that is less.

    request.Fits f q := 1 ≤ q ∧ q * |entry - stop| ≤ buyingPower * riskPercent / 100 ∧
      ∀ volume, q ≤ volume * f

The prices are checked first, then their distance, then whether any number of shares fits.  How
sizing goes from one check to the next does not depend on the numbers it works in, so the cases hold of
doubles too.
-/

namespace TradePlan

namespace SizeRequest

open AmountArithmetic

/-! ## The cases of sizing -/

section Cases

variable {α : Type} [AmountArithmetic α] (capFraction : α) (request : SizeRequest α)

def HasPrices : Prop := greater request.entry zero = true ∧ greater request.stop zero = true

/-- The number of shares within the risk and the volume. -/
def shares : α :=
  ((request.cap? capFraction request.riskLimit).map VolumeCap.shares).getD request.riskLimit

/-- The position of that number of shares. -/
def filled : Position α where
  quantity := toShares (request.shares capFraction)
  invested := mul request.entry (ofShares (toShares (request.shares capFraction)))
  atRisk := mul request.riskPerShare (ofShares (toShares (request.shares capFraction)))
  riskPercent := request.riskPercent
  cap := request.cap? capFraction request.riskLimit

/-- The four ends of sizing, each with the checks that lead to it. -/
theorem size_cases :
    (¬ request.HasPrices ∧
      request.size capFraction = .error (.invalidPrice request.entry request.stop)) ∨
    (request.HasPrices ∧ greater request.riskPerShare zero = false ∧
      request.size capFraction = .error .nonPositiveRisk) ∨
    (request.HasPrices ∧ greater request.riskPerShare zero = true ∧
      atLeast (request.shares capFraction) one = false ∧
      request.size capFraction = .error .zeroQuantity) ∨
    (request.HasPrices ∧ greater request.riskPerShare zero = true ∧
      atLeast (request.shares capFraction) one = true ∧
      request.size capFraction = .ok (request.filled capFraction)) := by
  have hprices : (!greater request.entry zero || !greater request.stop zero) = true ↔
      ¬ request.HasPrices := by
    rw [HasPrices]
    cases greater request.entry zero <;> cases greater request.stop zero <;> simp
  unfold size
  split
  · next h => exact .inl ⟨hprices.mp h, rfl⟩
  · next h =>
    have hprices : request.HasPrices := not_not.mp (mt hprices.mpr h)
    refine .inr ?_
    split
    · next hrisk => exact .inl ⟨hprices, by simpa using hrisk, rfl⟩
    · next hrisk =>
      have hrisk : greater request.riskPerShare zero = true := by simpa using hrisk
      refine .inr ?_
      simp only []
      split
      · next hshares => exact .inl ⟨hprices, hrisk, by simpa [shares] using hshares, rfl⟩
      · next hshares => exact .inr ⟨hprices, hrisk, by simpa [shares] using hshares, rfl⟩

theorem size_eq_ok_iff {position : Position α} :
    request.size capFraction = .ok position ↔
      request.HasPrices ∧ greater request.riskPerShare zero = true ∧
      atLeast (request.shares capFraction) one = true ∧ position = request.filled capFraction := by
  rcases request.size_cases capFraction with
    ⟨hprices, h⟩ | ⟨hprices, hrisk, h⟩ | ⟨hprices, hrisk, hshares, h⟩ | ⟨hprices, hrisk, hshares, h⟩
  · simp [h, hprices]
  · simp [h, hrisk]
  · simp [h, hshares]
  · simp [h, hprices, hrisk, hshares, eq_comm]

theorem size_eq_error_iff :
    (request.size capFraction = .error (.invalidPrice request.entry request.stop) ↔
      ¬ request.HasPrices) ∧
    (request.size capFraction = .error .nonPositiveRisk ↔
      request.HasPrices ∧ ¬ greater request.riskPerShare zero = true) ∧
    (request.size capFraction = .error .zeroQuantity ↔
      request.HasPrices ∧ greater request.riskPerShare zero = true ∧
      ¬ atLeast (request.shares capFraction) one = true) := by
  rcases request.size_cases capFraction with
    ⟨hprices, h⟩ | ⟨hprices, hrisk, h⟩ | ⟨hprices, hrisk, hshares, h⟩ | ⟨hprices, hrisk, hshares, h⟩
  · simp [h, hprices]
  · simp [h, hprices, hrisk]
  · simp [h, hprices, hrisk, hshares]
  · simp [h, hprices, hrisk, hshares]

end Cases

end SizeRequest

/-! ## Exact rationals -/

/-- Rationals; a whole number beyond the largest count of shares stands for that count. -/
instance : AmountArithmetic ℚ where
  zero := 0
  one := 1
  hundred := 100
  sub := (· - ·)
  mul := (· * ·)
  div := (· / ·)
  abs := abs
  floor x := ⌊x⌋
  greater x y := decide (y < x)
  atLeast x y := decide (y ≤ x)
  ofShares n := n
  toShares x := min ⌊x⌋.toNat maxShares

namespace SizeRequest

variable (capFraction : ℚ) (request : SizeRequest ℚ)

/-- The amount that may be lost. -/
def budget : ℚ := request.buyingPower * request.riskPercent / 100

/-- Whether a number of shares keeps within the risk and the volume. -/
structure Fits (q : ℕ) : Prop where
  one_le : 1 ≤ q
  risk : q * |request.entry - request.stop| ≤ request.budget
  volume : ∀ volume ∈ request.volume, q ≤ volume * capFraction

/-- Whether a position is the largest one within the risk and the volume. -/
structure IsLargest (position : Position ℚ) : Prop where
  quantity : ∃ q, IsGreatest {q | request.Fits capFraction q} q ∧ position.quantity = min q maxShares
  invested : position.invested = request.entry * position.quantity
  atRisk : position.atRisk = |request.entry - request.stop| * position.quantity
  riskPercent : position.riskPercent = request.riskPercent
  /-- There is a cap if the volume is what excludes some number of shares. -/
  isSome_cap : position.cap.isSome ↔ ∃ volume ∈ request.volume, ∃ q : ℕ,
    q * |request.entry - request.stop| ≤ request.budget ∧ volume * capFraction < q
  cap : ∀ cap ∈ position.cap, request.volume = some cap.volume ∧
    cap.percent = capFraction * 100 ∧ cap.shares = ⌊cap.volume * capFraction⌋

/-! ## Limits -/

/-- The whole number of shares that the risk allows. -/
def riskShares : ℤ := ⌊request.budget / |request.entry - request.stop|⌋

/-- The whole number of shares within the risk and the volume. -/
def limit : ℤ :=
  match request.volume with
  | none => request.riskShares
  | some volume => min request.riskShares ⌊volume * capFraction⌋

variable {request}

theorem riskLimit_eq : request.riskLimit = request.riskShares := by
  have hbudget : request.buyingPower * (request.riskPercent / 100) = request.budget := by
    rw [budget, mul_div_assoc]
  show ((⌊request.buyingPower * (request.riskPercent / 100) / |request.entry - request.stop|⌋ : ℤ) : ℚ)
    = _
  rw [hbudget, riskShares]

theorem cap?_eq (shares : ℤ) :
    request.cap? capFraction (shares : ℚ) = request.volume.bind fun volume =>
      if ⌊volume * capFraction⌋ < shares then
        some ⟨(⌊volume * capFraction⌋ : ℤ), capFraction * 100, volume⟩
      else none := by
  rw [cap?]
  cases request.volume with
  | none => rfl
  | some volume =>
    show (if decide (((⌊volume * capFraction⌋ : ℤ) : ℚ) < shares) = true then _ else _) = _
    simp only [decide_eq_true_eq, Int.cast_lt]
    rfl

theorem shares_eq : request.shares capFraction = request.limit capFraction := by
  rw [shares, riskLimit_eq, cap?_eq, limit]
  cases request.volume with
  | none => rfl
  | some volume =>
    simp only [Option.bind_some]
    split
    · next hlt => rw [min_eq_right (le_of_lt hlt)]; rfl
    · next hle => rw [min_eq_left (not_lt.mp hle)]; rfl

theorem le_riskShares_iff (h : request.entry ≠ request.stop) (q : ℕ) :
    (q : ℤ) ≤ request.riskShares ↔ q * |request.entry - request.stop| ≤ request.budget := by
  have hrisk : 0 < |request.entry - request.stop| := abs_pos.mpr (sub_ne_zero.mpr h)
  rw [riskShares, Int.le_floor, le_div_iff₀ hrisk, Int.cast_natCast]

/-- A number of shares fits if it is at most the limit. -/
theorem fits_iff (h : request.entry ≠ request.stop) (q : ℕ) :
    request.Fits capFraction q ↔ 1 ≤ q ∧ (q : ℤ) ≤ request.limit capFraction := by
  have hfloor : ∀ x : ℚ, (q : ℤ) ≤ ⌊x⌋ ↔ (q : ℚ) ≤ x := fun x => by
    rw [Int.le_floor, Int.cast_natCast]
  rw [limit]
  constructor
  · intro hfits
    refine ⟨hfits.one_le, ?_⟩
    have hrisk := (le_riskShares_iff h q).mpr hfits.risk
    cases hvolume : request.volume with
    | none => exact hrisk
    | some volume => exact le_min hrisk ((hfloor _).mpr (hfits.volume volume hvolume))
  · rintro ⟨hone, hlimit⟩
    cases hvolume : request.volume with
    | none =>
      rw [hvolume] at hlimit
      exact ⟨hone, (le_riskShares_iff h q).mp hlimit, by simp [hvolume]⟩
    | some volume =>
      rw [hvolume] at hlimit
      obtain ⟨hrisk, hcap⟩ := le_min_iff.mp hlimit
      refine ⟨hone, (le_riskShares_iff h q).mp hrisk, ?_⟩
      rintro other hother
      obtain rfl := Option.some.inj (hvolume.symm.trans hother)
      exact (hfloor _).mp hcap

theorem exists_fits_iff (h : request.entry ≠ request.stop) :
    (∃ q, request.Fits capFraction q) ↔ 1 ≤ request.limit capFraction := by
  constructor
  · rintro ⟨q, hq⟩
    obtain ⟨hone, hlimit⟩ := (fits_iff capFraction h q).mp hq
    omega
  · intro hlimit
    exact ⟨1, (fits_iff capFraction h 1).mpr ⟨le_refl 1, hlimit⟩⟩

theorem isGreatest_limit (h : request.entry ≠ request.stop)
    (hlimit : 1 ≤ request.limit capFraction) :
    IsGreatest {q | request.Fits capFraction q} (request.limit capFraction).toNat := by
  constructor
  · exact (fits_iff capFraction h _).mpr ⟨by omega, by omega⟩
  · intro q hq
    have := ((fits_iff capFraction h q).mp hq).2
    omega

/-! ## The sized position -/

theorem hasPrices_iff : request.HasPrices ↔ 0 < request.entry ∧ 0 < request.stop :=
  and_congr decide_eq_true_iff decide_eq_true_iff

theorem greater_riskPerShare_iff :
    AmountArithmetic.greater request.riskPerShare AmountArithmetic.zero = true ↔
      request.entry ≠ request.stop := by
  show decide (0 < |request.entry - request.stop|) = true ↔ _
  rw [decide_eq_true_iff, abs_pos, sub_ne_zero]

theorem atLeast_shares_iff (h : request.entry ≠ request.stop) :
    AmountArithmetic.atLeast (request.shares capFraction) AmountArithmetic.one = true ↔
      ∃ q, request.Fits capFraction q := by
  rw [exists_fits_iff capFraction h, shares_eq]
  show decide ((1 : ℚ) ≤ (request.limit capFraction : ℤ)) = true ↔ _
  rw [decide_eq_true_iff, ← Int.cast_one, Int.cast_le]

/-- There is a cap if and only if the volume excludes some number of shares that the risk allows. -/
theorem isSome_cap?_iff (h : request.entry ≠ request.stop)
    (hlimit : 1 ≤ request.limit capFraction) :
    (request.cap? capFraction request.riskLimit).isSome ↔
      ∃ volume ∈ request.volume, ∃ q : ℕ,
        q * |request.entry - request.stop| ≤ request.budget ∧ volume * capFraction < q := by
  rw [riskLimit_eq, cap?_eq]
  cases hvolume : request.volume with
  | none => simp
  | some volume =>
    have hshares : 1 ≤ request.riskShares := by
      rw [limit, hvolume] at hlimit
      exact (le_min_iff.mp hlimit).1
    have hiff : ⌊volume * capFraction⌋ < request.riskShares ↔
        ∃ q : ℕ, (q : ℤ) ≤ request.riskShares ∧ ⌊volume * capFraction⌋ < (q : ℤ) := by
      constructor
      · intro hlt
        exact ⟨request.riskShares.toNat, by omega, by omega⟩
      · rintro ⟨q, hq, hlt⟩
        omega
    simp only [Option.bind_some, Option.mem_some_iff, exists_eq_left', ← le_riskShares_iff h]
    simp only [Int.floor_lt, Int.cast_natCast] at hiff
    split
    · next hlt => simpa using hiff.mp (Int.floor_lt.mp hlt)
    · next hle => simpa using mt (fun hq => Int.floor_lt.mpr (hiff.mpr hq)) hle

theorem isLargest_filled (h : request.entry ≠ request.stop)
    (hlimit : 1 ≤ request.limit capFraction) :
    request.IsLargest capFraction (request.filled capFraction) where
  quantity := by
    refine ⟨_, isGreatest_limit capFraction h hlimit, ?_⟩
    show min ⌊request.shares capFraction⌋.toNat maxShares = _
    rw [shares_eq, Int.floor_intCast]
  invested := rfl
  atRisk := rfl
  riskPercent := rfl
  isSome_cap := isSome_cap?_iff capFraction h hlimit
  cap := by
    intro cap hcap
    rw [filled, riskLimit_eq, cap?_eq] at hcap
    obtain ⟨volume, hvolume, hcap⟩ := Option.bind_eq_some_iff.mp hcap
    split at hcap
    · obtain rfl := Option.some.inj hcap
      exact ⟨hvolume, rfl, rfl⟩
    · cases hcap

/-- There is only one largest position. -/
theorem IsLargest.eq {position other : Position ℚ} (h : request.IsLargest capFraction position)
    (hother : request.IsLargest capFraction other) : position = other := by
  have hquantity : position.quantity = other.quantity := by
    obtain ⟨q, hq, hposition⟩ := h.quantity
    obtain ⟨q', hq', hother⟩ := hother.quantity
    rw [hposition, hother, hq.unique hq']
  have hcap : position.cap = other.cap := by
    have hsome : position.cap.isSome ↔ other.cap.isSome := h.isSome_cap.trans hother.isSome_cap.symm
    cases hfirst : position.cap with
    | none =>
      rw [hfirst] at hsome
      cases hsecond : other.cap with
      | none => rfl
      | some cap => simp [hsecond] at hsome
    | some cap =>
      rw [hfirst] at hsome
      cases hsecond : other.cap with
      | none => simp [hsecond] at hsome
      | some cap' =>
        obtain ⟨hvolume, hpercent, hshares⟩ := h.cap cap hfirst
        obtain ⟨hvolume', hpercent', hshares'⟩ := hother.cap cap' hsecond
        have hsame : cap.volume = cap'.volume := Option.some.inj (hvolume.symm.trans hvolume')
        rw [Option.some.injEq, VolumeCap.mk.injEq]
        exact ⟨by rw [hshares, hshares', hsame], by rw [hpercent, hpercent'], hsame⟩
  rw [Position.mk.injEq]
  refine ⟨hquantity, ?_, ?_, ?_, hcap⟩
  · rw [h.invested, hother.invested, hquantity]
  · rw [h.atRisk, hother.atRisk, hquantity]
  · rw [h.riskPercent, hother.riskPercent]

/-- The largest position keeps within the risk, and with one more share it would not fit. -/
theorem IsLargest.within {position : Position ℚ} (h : request.IsLargest capFraction position) :
    position.atRisk ≤ request.budget ∧
    (position.quantity < maxShares → ¬ request.Fits capFraction (position.quantity + 1)) := by
  obtain ⟨q, hq, hquantity⟩ := h.quantity
  constructor
  · have hle : (position.quantity : ℚ) ≤ q := by
      rw [hquantity]
      exact_mod_cast min_le_left q maxShares
    calc position.atRisk = position.quantity * |request.entry - request.stop| := by
          rw [h.atRisk, mul_comm]
      _ ≤ q * |request.entry - request.stop| := mul_le_mul_of_nonneg_right hle (abs_nonneg _)
      _ ≤ request.budget := hq.1.risk
  · intro hlt hfits
    have := hq.2 hfits
    omega

/-! ## Top theorem -/

/-- **Sizing gives the largest position.** -/
theorem size_eq_largest (capFraction : ℚ) (request : SizeRequest ℚ) :
    (request.size capFraction = .error (.invalidPrice request.entry request.stop) ↔
      ¬ (0 < request.entry ∧ 0 < request.stop)) ∧
    (request.size capFraction = .error .nonPositiveRisk ↔
      (0 < request.entry ∧ 0 < request.stop) ∧ request.entry = request.stop) ∧
    (request.size capFraction = .error .zeroQuantity ↔
      (0 < request.entry ∧ 0 < request.stop) ∧ request.entry ≠ request.stop ∧
      ∀ q, ¬ request.Fits capFraction q) ∧
    (∀ position, request.size capFraction = .ok position ↔
      (0 < request.entry ∧ 0 < request.stop) ∧ request.entry ≠ request.stop ∧
      request.IsLargest capFraction position) ∧
    (∀ position, request.size capFraction = .ok position →
      position.atRisk ≤ request.budget ∧
      (position.quantity < maxShares → ¬ request.Fits capFraction (position.quantity + 1))) ∧
    (∀ partialFill, { request with partialFill }.size capFraction = request.size capFraction) := by
  have hlargest : ∀ position, request.size capFraction = .ok position ↔
      (0 < request.entry ∧ 0 < request.stop) ∧ request.entry ≠ request.stop ∧
      request.IsLargest capFraction position := by
    intro position
    rw [size_eq_ok_iff, hasPrices_iff, greater_riskPerShare_iff]
    refine and_congr_right fun _ => and_congr_right fun hrisk => ?_
    rw [atLeast_shares_iff capFraction hrisk, exists_fits_iff capFraction hrisk]
    constructor
    · rintro ⟨hlimit, rfl⟩
      exact isLargest_filled capFraction hrisk hlimit
    · intro hposition
      obtain ⟨q, hq, -⟩ := hposition.quantity
      have hlimit := (exists_fits_iff capFraction hrisk).mp ⟨q, hq.1⟩
      exact ⟨hlimit, hposition.eq capFraction (isLargest_filled capFraction hrisk hlimit)⟩
  obtain ⟨hinvalid, hnonPositive, hzero⟩ := request.size_eq_error_iff capFraction
  rw [hasPrices_iff] at hinvalid hnonPositive hzero
  rw [greater_riskPerShare_iff] at hnonPositive hzero
  refine ⟨hinvalid, ?_, ?_, hlargest,
    fun position h => ((hlargest position).mp h).2.2.within capFraction, fun _ => rfl⟩
  · rw [hnonPositive, not_not]
  · rw [hzero]
    refine and_congr_right fun _ => and_congr_right fun hrisk => ?_
    rw [atLeast_shares_iff capFraction hrisk, not_exists]

/-- At most 1000 of 100000 are lost if 200 shares lose 5 each; a volume of 5000 allows 50. -/
example : (SizeRequest.mk 100 95 1 100000 (some 5000) none).size (1 / 100 : ℚ) =
    .ok ⟨50, 5000, 250, 1, some ⟨50, 1, 5000⟩⟩ := by
  decide +kernel

end SizeRequest

end TradePlan
