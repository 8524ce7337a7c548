import Mathlib
import TradePlan.Number.Binary

/-!
# Rounding to doubles

The nearest double depends on the quotient alone, not on the numbers that it is written with, and
the double nearest to the number that a double stands for is that double.  The bits up to those of
infinity are those of a double, and a double is finite if its exponent field is not the largest.

    (Float.ofBits bits).toBits = bits    for bits up to those of infinity     (toBits_ofBits)
    nearest (num * k) (den * k) = nearest num den                              (nearest_mul)
    Binary.ofFloat x = .finite false m e →
      nearest (m * power 2 e) (power 2 (-e)) = x                               (nearest_ofFloat)
-/

namespace TradePlan

/-! ## The bits of a double -/

section Bits

open Float.Model
open Float.Model.UnpackedFloat (unpackMantissa unpackExponent)

theorem toNat_unpackMantissa (b : BitVec 64) :
    (@unpackMantissa Format.binary64 b).toNat = b.toNat % fractionCount := by
  simp [unpackMantissa, fractionCount]

theorem toNat_unpackExponent (b : BitVec 64) :
    (@unpackExponent Format.binary64 b).toNat = b.toNat / fractionCount % 2048 := by
  simp [unpackExponent, fractionCount, Nat.shiftRight_eq_div_pow]

theorem toBits_ofBits_of_valid {bits : UInt64} (h : Format.binary64.Valid bits.toBitVec) :
    (Float.ofBits bits).toBits = bits :=
  congrArg UInt64.ofBitVec (UnpackedFloat.pack_unpack_of_valid h)

/-- The bits up to those of infinity are those of a double. -/
theorem toBits_ofBits {bits : UInt64} (h : bits.toNat ≤ 2047 * fractionCount) :
    (Float.ofBits bits).toBits = bits := by
  refine toBits_ofBits_of_valid ⟨fun hexp hman => absurd (BitVec.eq_of_toNat_eq ?_) hman⟩
  have he : bits.toNat / fractionCount % 2048 = 2047 := by
    rw [← UInt64.toNat_toBitVec, ← toNat_unpackExponent, hexp]
    rfl
  rw [toNat_unpackMantissa, UInt64.toNat_toBitVec]
  show _ = 0
  simp only [fractionCount] at h he ⊢
  omega

/-- A double is finite if its exponent field is not the largest. -/
theorem isFinite_iff (x : Float) :
    x.isFinite = true ↔ x.toBits.toNat / fractionCount % 2048 ≠ 2047 := by
  have he : @unpackExponent Format.binary64 x.toBits.toBitVec = -1#_ ↔
      x.toBits.toNat / fractionCount % 2048 = 2047 := by
    rw [← UInt64.toNat_toBitVec, ← toNat_unpackExponent]
    exact ⟨fun h => by rw [h]; rfl, fun h => BitVec.eq_of_toNat_eq h⟩
  show (UnpackedFloat.unpack Format.binary64 x.toBits.toBitVec).isFinite = true ↔ _
  rw [ne_eq, ← he]
  unfold UnpackedFloat.unpack
  simp only []
  split
  · next hexp =>
    have hfalse : ∀ {value : UnpackedFloat}, value.isFinite = false →
        (value.isFinite = true ↔ ¬ @unpackExponent Format.binary64 x.toBits.toBitVec = -1#_) :=
      fun h => ⟨fun h' => absurd (h.symm.trans h') Bool.false_ne_true, fun h' => absurd hexp h'⟩
    split
    · exact hfalse rfl
    · exact hfalse rfl
  · next hexp =>
    split
    · split
      · exact ⟨fun _ => hexp, fun _ => rfl⟩
      · exact ⟨fun _ => hexp, fun _ => rfl⟩
    · exact ⟨fun _ => hexp, fun _ => rfl⟩

end Bits

/-! ## Powers -/

theorem power_add {base : Nat} {i j : Int} (hi : 0 ≤ i) (hj : 0 ≤ j) :
    power base (i + j) = power base i * power base j := by
  rw [power, power, power, Int.toNat_add hi hj]
  exact Nat.pow_add base i.toNat j.toNat

theorem power_eq_pow (base : Nat) (i : Int) : power base i = base ^ i.toNat := rfl

theorem power_mul {a b : Nat} (i : Int) : power (a * b) i = power a i * power b i :=
  Nat.mul_pow a b i.toNat

theorem power_zero (base : Nat) : power base 0 = 1 := rfl

/-- A power of five has two binary digits for each of its factors. -/
theorem le_log2_mul_power_five {m : Nat} (hm : m ≠ 0) (i : Int) :
    2 * i ≤ (m * power 5 i).log2 := by
  by_cases hi : 0 ≤ i
  · have hpow : Nat.pow 2 (2 * i.toNat) ≤ m * power 5 i := by
      calc Nat.pow 2 (2 * i.toNat) = Nat.pow 4 i.toNat := Nat.pow_mul 2 2 i.toNat
        _ ≤ power 5 i := Nat.pow_le_pow_left (by decide) i.toNat
        _ ≤ m * power 5 i := Nat.le_mul_of_pos_left _ (Nat.pos_of_ne_zero hm)
    have hne : m * power 5 i ≠ 0 := Nat.mul_ne_zero hm (Nat.ne_of_gt (power_pos (by decide) i))
    have := (Nat.le_log2 hne).mpr hpow
    omega
  · omega

/-! ## The scale of a quotient -/

/-- Only the difference of the powers of two on both sides counts. -/
theorem mul_two_pow_le_iff {num den a b c d : Nat} (h : a + d = c + b) :
    den * 2 ^ a ≤ num * 2 ^ b ↔ den * 2 ^ c ≤ num * 2 ^ d :=
  calc den * 2 ^ a ≤ num * 2 ^ b
      ↔ den * 2 ^ a * 2 ^ d ≤ num * 2 ^ b * 2 ^ d :=
        (Nat.mul_le_mul_right_iff (Nat.two_pow_pos d)).symm
    _ ↔ den * 2 ^ c * 2 ^ b ≤ num * 2 ^ d * 2 ^ b := by
        rw [Nat.mul_assoc, Nat.mul_assoc den, ← Nat.pow_add, ← Nat.pow_add, h, Nat.mul_right_comm num]
    _ ↔ den * 2 ^ c ≤ num * 2 ^ d := Nat.mul_le_mul_right_iff (Nat.two_pow_pos b)

/-- `2 ^ k` is at most `num / den`. -/
def AtLeast (num den : Nat) (k : Int) : Prop := den * power 2 k ≤ num * power 2 (-k)

/-- Both sides may be scaled by one power, so that no exponent is negative. -/
theorem atLeast_iff {num den : Nat} {k c : Int} (hc : 0 ≤ c) (hck : 0 ≤ c + k) :
    AtLeast num den k ↔ den * power 2 (c + k) ≤ num * power 2 c := by
  unfold AtLeast
  simp only [power_eq_pow]
  exact mul_two_pow_le_iff (by omega)

/-- The scale of a quotient that is given at an exponent. -/
theorem atLeast_scale {num den : Nat} (e j : Int) :
    AtLeast (num * power 2 e) (den * power 2 (-e)) (e + j) ↔ AtLeast num den j := by
  unfold AtLeast
  simp only [power_eq_pow, Nat.mul_assoc, ← Nat.pow_add]
  exact mul_two_pow_le_iff (by omega)

theorem atLeast_iff_le_div {num den : Nat} (hden : 0 < den) {j : Int} (hj : 0 ≤ j) :
    AtLeast num den j ↔ power 2 j ≤ num / den := by
  rw [AtLeast, power_of_nonpos (show -j ≤ 0 by omega), Nat.mul_one, Nat.le_div_iff_mul_le hden,
    Nat.mul_comm]

theorem atLeast_of_le {num den : Nat} {j k : Int} (hjk : j ≤ k) (h : AtLeast num den k) :
    AtLeast num den j := by
  have hc : 0 ≤ (j.natAbs : Int) + j := by omega
  rw [atLeast_iff (show 0 ≤ (j.natAbs : Int) by omega) hc]
  rw [atLeast_iff (show 0 ≤ (j.natAbs : Int) by omega) (by omega)] at h
  refine Nat.le_trans (Nat.mul_le_mul_left den ?_) h
  exact Nat.pow_le_pow_right (by decide) (by omega)

theorem atLeast_mul {num den k : Nat} {j : Int} (hk : 0 < k) :
    AtLeast (num * k) (den * k) j ↔ AtLeast num den j := by
  rw [AtLeast, AtLeast, Nat.mul_right_comm den, Nat.mul_right_comm num]
  exact Nat.mul_le_mul_right_iff hk

theorem atLeast_dyadic {m : Nat} {e j : Int} (hj : 0 ≤ j) :
    AtLeast (m * power 2 e) (power 2 (-e)) (e + j) ↔ power 2 j ≤ m := by
  have hscale := @atLeast_scale m 1 e j
  rwa [Nat.one_mul, atLeast_iff_le_div Nat.one_pos hj, Nat.div_one] at hscale

/-- The scale of a quotient is the greatest one that it reaches. -/
theorem floorLog2_eq_iff {num den : Nat} (hnum : 0 < num) (hden : 0 < den) {k : Int} :
    floorLog2 num den = k ↔ AtLeast num den k ∧ ¬ AtLeast num den (k + 1) := by
  have hupper : ¬ AtLeast num den ((num.log2 : Int) - den.log2 + 1) := by
    rw [atLeast_iff (show 0 ≤ (den.log2 : Int) by omega) (by omega), Nat.not_le,
      show (den.log2 : Int) + ((num.log2 : Int) - den.log2 + 1) = ((num.log2 + 1 : Nat) : Int) by omega]
    calc num * power 2 den.log2 < power 2 ((num.log2 + 1 : Nat) : Int) * power 2 den.log2 :=
          Nat.mul_lt_mul_of_pos_right Nat.lt_log2_self (power_pos (by decide) _)
      _ ≤ den * power 2 ((num.log2 + 1 : Nat) : Int) := by
          rw [Nat.mul_comm]
          exact Nat.mul_le_mul_right _ (Nat.log2_self_le (by omega))
  have hlower : AtLeast num den ((num.log2 : Int) - den.log2 - 1) := by
    rw [atLeast_iff (show 0 ≤ ((den.log2 + 1 : Nat) : Int) by omega) (by omega),
      show ((den.log2 + 1 : Nat) : Int) + ((num.log2 : Int) - den.log2 - 1) = (num.log2 : Int) by omega]
    calc den * power 2 num.log2 ≤ power 2 ((den.log2 + 1 : Nat) : Int) * power 2 num.log2 :=
          Nat.mul_le_mul_right _ (Nat.le_of_lt Nat.lt_log2_self)
      _ ≤ num * power 2 ((den.log2 + 1 : Nat) : Int) := by
          rw [Nat.mul_comm]
          exact Nat.mul_le_mul_right _ (Nat.log2_self_le (by omega))
  have hspec : AtLeast num den (floorLog2 num den) ∧ ¬ AtLeast num den (floorLog2 num den + 1) := by
    simp only [floorLog2]
    split
    · next h => exact ⟨h, hupper⟩
    · next h =>
      refine ⟨hlower, ?_⟩
      rw [Int.sub_add_cancel]
      exact h
  constructor
  · rintro rfl
    exact hspec
  · rintro ⟨hk, hk'⟩
    have h1 : ¬ floorLog2 num den < k := fun hlt => hspec.2 (atLeast_of_le (by omega) hk)
    have h2 : ¬ k < floorLog2 num den := fun hlt => hk' (atLeast_of_le (by omega) hspec.1)
    omega

theorem floorLog2_mul {num den k : Nat} (hnum : 0 < num) (hden : 0 < den) (hk : 0 < k) :
    floorLog2 (num * k) (den * k) = floorLog2 num den := by
  rw [floorLog2_eq_iff (Nat.mul_pos hnum hk) (Nat.mul_pos hden hk), atLeast_mul hk, atLeast_mul hk]
  exact (floorLog2_eq_iff hnum hden).mp rfl

theorem floorLog2_dyadic {m : Nat} (hm : 0 < m) (e : Int) :
    floorLog2 (m * power 2 e) (power 2 (-e)) = e + m.log2 := by
  rw [floorLog2_eq_iff (Nat.mul_pos hm (power_pos (by decide) e)) (power_pos (by decide) (-e)),
    atLeast_dyadic (by omega), Int.add_assoc, atLeast_dyadic (by omega)]
  refine ⟨Nat.log2_self_le (by omega), ?_⟩
  rw [Nat.not_le]
  exact Nat.lt_log2_self

/-! ## Rounding -/

theorem divHalfEven_mul (num den : Nat) {k : Nat} (hk : 0 < k) :
    divHalfEven (num * k) (den * k) = divHalfEven num den := by
  have hlt : 2 * (num % den * k) < den * k ↔ 2 * (num % den) < den := by
    rw [← Nat.mul_assoc]
    exact Nat.mul_lt_mul_right hk
  have heq : 2 * (num % den * k) = den * k ↔ 2 * (num % den) = den := by
    rw [← Nat.mul_assoc]
    exact Nat.mul_right_cancel_iff hk
  simp only [divHalfEven, Nat.mul_div_mul_right _ _ hk, Nat.mul_mod_mul_right, hlt, heq]

theorem divHalfEven_one (n : Nat) : divHalfEven n 1 = n := by
  simp [divHalfEven, Nat.mod_one]

theorem nearestBits_mul (num : Nat) {den k : Nat} (hden : 0 < den) (hk : 0 < k) :
    nearestBits (num * k) (den * k) = nearestBits num den := by
  by_cases hnum : num = 0
  · rw [hnum, Nat.zero_mul, nearestBits, nearestBits, if_pos rfl, if_pos rfl]
  · have hnum : 0 < num := Nat.pos_of_ne_zero hnum
    rw [nearestBits, nearestBits, if_neg (Nat.ne_of_gt (Nat.mul_pos hnum hk)),
      if_neg (Nat.ne_of_gt hnum), floorLog2_mul hnum hden hk]
    simp only [Nat.mul_right_comm _ k, divHalfEven_mul _ _ hk]

/-- The nearest double depends on the quotient alone. -/
theorem nearest_mul (num : Nat) {den k : Nat} (hden : 0 < den) (hk : 0 < k) :
    nearest (num * k) (den * k) = nearest num den := by
  rw [nearest, nearest, nearestBits_mul num hden hk]

/-- Two quotients that are equal have the same nearest double. -/
theorem nearest_eq_of_mul_eq {num den num' den' : Nat} (hden : 0 < den) (hden' : 0 < den')
    (h : num * den' = num' * den) : nearest num den = nearest num' den' := by
  rw [← nearest_mul num hden hden', ← nearest_mul num' hden' hden, h, Nat.mul_comm den]

/-- Only the difference of the powers of two above and below counts. -/
theorem nearest_two_pow {num den a b c d : Nat} (hden : 0 < den) (h : a + d = c + b) :
    nearest (num * 2 ^ a) (den * 2 ^ b) = nearest (num * 2 ^ c) (den * 2 ^ d) := by
  refine nearest_eq_of_mul_eq (Nat.mul_pos hden (Nat.two_pow_pos b))
    (Nat.mul_pos hden (Nat.two_pow_pos d)) ?_
  rw [Nat.mul_mul_mul_comm, Nat.mul_mul_mul_comm num (2 ^ c), ← Nat.pow_add, ← Nat.pow_add, h]

theorem nearest_zero (den : Nat) : nearest 0 den = 0.0 := by
  rw [nearest, nearestBits, if_pos rfl]
  decide +kernel

theorem nearestBits_le (num den : Nat) : nearestBits num den ≤ 2047 * fractionCount := by
  rw [nearestBits]
  split
  · exact Nat.zero_le _
  · exact Nat.min_le_right _ _

theorem toNat_toBits_nearest (num den : Nat) :
    (nearest num den).toBits.toNat = nearestBits num den := by
  have hle := nearestBits_le num den
  have hbits : (UInt64.ofNat (nearestBits num den)).toNat = nearestBits num den :=
    UInt64.toNat_ofNat_of_lt (Nat.lt_of_le_of_lt hle (by decide))
  rw [nearest, toBits_ofBits (by rw [hbits]; exact hle), hbits]

/-- A mantissa of at most 53 bits at an exponent that doubles have is kept. -/
theorem nearestBits_dyadic {m : Nat} {e : Int} (hm : 0 < m)
    (hscale : max (e + m.log2 - 52) (-1074) = e) :
    nearestBits (m * power 2 e) (power 2 (-e)) =
      min ((e + 1074).toNat * fractionCount + m) (2047 * fractionCount) := by
  have hpos : 0 < m * power 2 e := Nat.mul_pos hm (power_pos (by decide) e)
  have hone : power 2 (-e) * power 2 e = 1 * (power 2 e * power 2 (-e)) := by
    rw [Nat.one_mul, Nat.mul_comm]
  rw [nearestBits, if_neg (Nat.ne_of_gt hpos), floorLog2_dyadic hm]
  simp only [hscale]
  rw [hone, Nat.mul_assoc, divHalfEven_mul _ _ (Nat.mul_pos (power_pos (by decide) e)
    (power_pos (by decide) (-e))), divHalfEven_one]

/-- The double nearest to the number that a double stands for is that double. -/
theorem nearest_ofFloat {x : Float} {m : Nat} {e : Int} (h : Binary.ofFloat x = .finite false m e) :
    nearest (m * power 2 e) (power 2 (-e)) = x := by
  have hbits : nearestBits (m * power 2 e) (power 2 (-e)) = x.toBits.toNat := by
    simp only [Binary.ofFloat] at h
    split at h
    · split at h <;> cases h
    · next hexp =>
      split at h
      · next hexp0 =>
        obtain ⟨hsign, rfl, rfl⟩ := Binary.finite.inj h
        have hsign := of_decide_eq_false hsign
        simp only [signBit, fractionCount] at hexp hexp0 hsign ⊢
        by_cases hm : x.toBits.toNat % 0x10000000000000 = 0
        · rw [hm, Nat.zero_mul]
          show 0 = _
          omega
        · have hlog : (x.toBits.toNat % 0x10000000000000).log2 < 52 :=
            (Nat.log2_lt hm).mpr (Nat.mod_lt _ (by decide))
          rw [nearestBits_dyadic (Nat.pos_of_ne_zero hm) (by omega)]
          simp only [fractionCount]
          omega
      · next hexp0 =>
        obtain ⟨hsign, rfl, rfl⟩ := Binary.finite.inj h
        have hsign := of_decide_eq_false hsign
        have hlog : (fractionCount + x.toBits.toNat % fractionCount).log2 = 52 := by
          rw [Nat.log2_eq_iff (by simp only [fractionCount]; omega)]
          simp only [fractionCount]
          omega
        rw [nearestBits_dyadic (by simp only [fractionCount]; omega) (by rw [hlog]; omega)]
        simp only [signBit, fractionCount] at hexp hexp0 hsign ⊢
        omega
  rw [nearest, hbits, UInt64.ofNat_toNat, Float.ofBits_toBits]

end TradePlan
