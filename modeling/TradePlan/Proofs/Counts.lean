import TradePlan.Proofs.Signs
import TradePlan.Proofs.Division

/-!
# Counts and doubles

Whether a count is at most the number that a double stands for, compared as exact numbers.  No count
is at most what is no number.

    AtMost n x → 0 < x → x ≤ y → AtMost n y                                           (AtMost.mono)
    0 < x → AtMost x.toUInt64.toNat x                                            (atMost_toUInt64)

The mantissa of a double is full unless its exponent is the least one, so a double with the larger
exponent stands for the larger number.
-/

namespace TradePlan

open Float.Model
open Float.Model.UnpackedFloat

/-- Whether a count is at most the number that a double stands for. -/
def AtMost (n : Nat) (x : Float) : Prop :=
  match Binary.ofFloat x with
  | .nan => False
  | .infinite negative => negative = false
  | .finite negative m e => (n : ℚ) ≤ (if negative then -1 else 1) * (m : ℚ) * 2 ^ e

instance (n : Nat) (x : Float) : Decidable (AtMost n x) :=
  match h : Binary.ofFloat x with
  | .nan => .isFalse (by rw [AtMost, h]; exact id)
  | .infinite negative => decidable_of_iff (negative = false) (by rw [AtMost, h])
  | .finite negative m e =>
    decidable_of_iff ((n : ℚ) ≤ (if negative then -1 else 1) * (m : ℚ) * 2 ^ e) (by rw [AtMost, h])

variable {n : Nat} {x y : Float}

theorem atMost_of_infinity (h : x.toModel.unpack = .infinity .positive) : AtMost n x := by
  rw [AtMost, ofFloat_eq, h]
  rfl

theorem atMost_iff {m : Nat} {e : Int} {hm : 0 < m}
    (h : x.toModel.unpack = .finite .positive m e hm) : AtMost n x ↔ (n : ℚ) ≤ m * 2 ^ e := by
  rw [AtMost, ofFloat_eq, h]
  show (n : ℚ) ≤ 1 * m * 2 ^ e ↔ _
  rw [one_mul]

theorem isNaN_of_atMost (h : AtMost n x) : x.isNaN = false := by
  rw [AtMost, ofFloat_eq] at h
  show x.toModel.unpack.isNaN = false
  cases hx : x.toModel.unpack with
  | notANumber =>
    rw [hx] at h
    exact h.elim
  | infinity _ | zero _ | finite _ _ _ _ => rfl

/-! ## Larger doubles -/

/-- The mantissa of a double is full unless the exponent is the least one. -/
theorem full_or_least {sign : Sign} {m : Nat} {e : Int} {hm : 0 < m}
    (h : x.toModel.unpack = .finite sign m e hm) :
    m < 2 ^ 53 ∧ (2 ^ 52 ≤ m ∧ -1074 ≤ e ∨ e = -1074) := by
  have hdecode : Binary.ofFloat x = .finite (sign == .negative) m e := by
    rw [ofFloat_eq, h]
    rfl
  unfold Binary.ofFloat at hdecode
  simp only [] at hdecode
  split at hdecode
  · split at hdecode <;> cases hdecode
  · split at hdecode
    · obtain ⟨-, rfl, rfl⟩ := Binary.finite.inj hdecode
      rw [fractionCount]
      omega
    · next hexponent =>
      obtain ⟨-, rfl, rfl⟩ := Binary.finite.inj hdecode
      simp only [fractionCount] at hexponent ⊢
      omega

/-- With a full mantissa the larger exponent decides. -/
theorem mul_zpow_le {m m' : Nat} {e e' : Int} (hm : m < 2 ^ 53) (hfull : 2 ^ 52 ≤ m') (h : e < e') :
    (m : ℚ) * 2 ^ e ≤ m' * 2 ^ e' := by
  have hlt : (m : ℚ) ≤ 2 ^ 53 := by exact_mod_cast Nat.le_of_lt hm
  have hle : (2 : ℚ) ^ 52 ≤ m' := by exact_mod_cast hfull
  calc (m : ℚ) * 2 ^ e ≤ 2 ^ 53 * 2 ^ e := by gcongr
    _ = 2 ^ (53 + e) := by rw [zpow_add₀ (by norm_num)]; norm_cast
    _ ≤ 2 ^ (52 + e') := zpow_le_zpow_right₀ (by norm_num) (by omega)
    _ = 2 ^ 52 * 2 ^ e' := by rw [zpow_add₀ (by norm_num)]; norm_cast
    _ ≤ m' * 2 ^ e' := by gcongr

/-- **A count that is at most a double above zero is at most every double that is not less.** -/
theorem AtMost.mono (h : AtMost n x) (hpos : 0 < x) (hle : x ≤ y) : AtMost n y := by
  rcases unpack_of_pos (double_lt_of_lt_of_le hpos hle) with hinfinity | ⟨m', e', hm', hy⟩
  · exact atMost_of_infinity hinfinity
  obtain ⟨p, hp, q, hq, hpq⟩ := le_iff_place.mp hle
  rw [place, hy] at hq
  obtain rfl := Option.some.inj hq
  rcases unpack_of_pos hpos with hinfinity | ⟨m, e, hm, hx⟩
  · rw [place, hinfinity] at hp
    obtain rfl := Option.some.inj hp
    exact absurd hpq (by simp [Prod.Lex.toLex_le_toLex])
  · rw [place, hx] at hp
    obtain rfl := Option.some.inj hp
    have hplaces : e < e' ∨ e = e' ∧ m ≤ m' := by simpa [Prod.Lex.toLex_le_toLex] using hpq
    have hfull := full_or_least hx
    have hfull' := full_or_least hy
    rw [atMost_iff hx] at h
    rw [atMost_iff hy]
    refine h.trans ?_
    rcases hplaces with hlt | ⟨rfl, hle⟩
    · exact mul_zpow_le hfull.1 (by omega) hlt
    · have hle : (m : ℚ) ≤ m' := by exact_mod_cast hle
      gcongr

/-! ## Whole parts -/

theorem roundToInt_positive (m : Nat) (e : Int) :
    roundToInt .positive m e = (m * 2 ^ e.toNat / 2 ^ (-e).toNat : Nat) := by
  unfold roundToInt decreaseExponent shiftToExponent
  simp only [Int.sub_zero, Nat.shiftLeft_eq]
  rw [ofMantissaAndAccuracy_exact, shiftRight_quotientOf Nat.one_pos]
  show ((m * 2 ^ e.toNat / (1 * 2 ^ (0 - (e - e.toNat)).toNat) : Nat) : Int) = _
  rw [Nat.one_mul]
  congr 3
  omega

theorem toNat_ofNatClamp_le (n : Nat) : (UInt64.ofNatClamp n).toNat ≤ n := by
  unfold UInt64.ofNatClamp
  split
  · exact le_of_eq (UInt64.toNat_ofNatLT ..)
  · next h =>
    rw [UInt64.toNat_ofNatLT]
    omega

/-- **The whole part of a double above zero is at most that double.** -/
theorem atMost_toUInt64 (hpos : 0 < x) : AtMost x.toUInt64.toNat x := by
  rcases unpack_of_pos hpos with hinfinity | ⟨m, e, hm, hx⟩
  · exact atMost_of_infinity hinfinity
  · rw [atMost_iff hx]
    have hwhole : x.toUInt64.toNat ≤ m * 2 ^ e.toNat / 2 ^ (-e).toNat := by
      show x.toModel.unpack.toUInt64.toNat ≤ _
      rw [hx]
      refine (toNat_ofNatClamp_le _).trans ?_
      show (roundToInt .positive m e).toNat ≤ _
      rw [roundToInt_positive, Int.toNat_natCast]
    calc ((x.toUInt64.toNat : ℕ) : ℚ) ≤ (m * 2 ^ e.toNat / 2 ^ (-e).toNat : ℕ) := by
          exact_mod_cast hwhole
      _ ≤ (m * 2 ^ e.toNat : ℕ) / (2 ^ (-e).toNat : ℕ) := Nat.cast_div_le
      _ = m * 2 ^ e := by
        push_cast
        rw [mul_div_assoc, ← zpow_natCast, ← zpow_natCast, ← zpow_sub₀ (by norm_num)]
        congr 2
        omega

end TradePlan
