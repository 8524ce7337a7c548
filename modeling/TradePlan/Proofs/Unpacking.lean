import TradePlan.Proofs.Rounding
import TradePlan.Number.Whole

/-!
# Unpacking doubles

A double is decoded as it is unpacked, and every double is packed from what it is unpacked to.
Packing keeps the sign, and so does rounding to a whole number.

    Binary.ofFloat x = .ofUnpacked x.toModel.unpack                                  (ofFloat_eq)
    packed x.toModel.unpack = x                                                   (packed_unpack)
    -packed f = packed f.neg                                                        (neg_packed)
    sign? (rule.round x).toModel.unpack = sign? x.toModel.unpack                   (sign?_round)

Only what is no number has no sign, so a number is rounded to a number.
-/

namespace TradePlan

open Float.Model
open Float.Model.UnpackedFloat

/-! ## Decoding -/

/-- The number that an unpacked double stands for. -/
def Binary.ofUnpacked : UnpackedFloat → Binary
  | .notANumber => .nan
  | .infinity sign => .infinite (sign == .negative)
  | .zero sign => .finite (sign == .negative) 0 (-1074)
  | .finite sign m e _ => .finite (sign == .negative) m e

theorem isNegative_unpackSign (b : BitVec 64) :
    (Sign.ofBitVec (@unpackSign Format.binary64 b) == .negative) = decide (signBit ≤ b.toNat) := by
  have hlt : b.toNat < 2 ^ 64 := b.isLt
  have hsign : (@unpackSign Format.binary64 b).toNat = b.toNat / signBit % 2 := by
    simp [unpackSign, signBit, Nat.shiftRight_eq_div_pow]
  by_cases hnegative : signBit ≤ b.toNat
  · have hone : @unpackSign Format.binary64 b = 1#1 := by
      refine BitVec.eq_of_toNat_eq (hsign.trans ?_)
      rw [signBit] at hnegative ⊢
      show _ = 1
      omega
    rw [hone, decide_eq_true hnegative]
    rfl
  · have hzero : @unpackSign Format.binary64 b = 0#1 := by
      refine BitVec.eq_of_toNat_eq (hsign.trans ?_)
      rw [Nat.div_eq_of_lt (Nat.not_le.mp hnegative)]
      rfl
    rw [hzero, decide_eq_false hnegative]
    rfl

/-- **A double is decoded as it is unpacked.** -/
theorem ofFloat_eq (x : Float) : Binary.ofFloat x = .ofUnpacked x.toModel.unpack := by
  have hbits : x.toBits.toBitVec.toNat = x.toBits.toNat := UInt64.toNat_toBitVec x.toBits
  have hexponent := toNat_unpackExponent x.toBits.toBitVec
  have hmantissa := toNat_unpackMantissa x.toBits.toBitVec
  have hsign := isNegative_unpackSign x.toBits.toBitVec
  rw [hbits] at hexponent hmantissa hsign
  show _ = Binary.ofUnpacked (UnpackedFloat.unpack Format.binary64 x.toBits.toBitVec)
  unfold UnpackedFloat.unpack Binary.ofFloat
  simp only [← hexponent, ← hmantissa, ← hsign]
  -- both test the same fields, one side as bits and the other as numbers
  have hfield : ∀ {w : Nat} {b c : BitVec w} {n : Nat}, c.toNat = n → (b = c ↔ b.toNat = n) := by
    rintro w b c _ rfl
    exact ⟨congrArg BitVec.toNat, BitVec.eq_of_toNat_eq⟩
  have hlargest : (-1#11).toNat = 2047 := rfl
  have hleast : ∀ w, (BitVec.ofNat w 0).toNat = 0 := fun w => BitVec.toNat_zero
  simp only [hfield hlargest, hfield (hleast _)]
  split
  · split <;> rfl
  · split
    · next hsubnormal =>
      split
      · next hzero => rw [hzero]; rfl
      · simp only [Binary.ofUnpacked, hsubnormal]; rfl
    · have hlt := (@unpackMantissa Format.binary64 x.toBits.toBitVec).isLt
      simp only [Binary.ofUnpacked]
      rw [BitVec.toNat_append, ← Nat.shiftLeft_add_eq_or_of_lt hlt]
      rfl

theorem unpack_of_ofFloat {x : Float} {m : Nat} {e : Int} (hm : 0 < m)
    (h : Binary.ofFloat x = .finite false m e) : x.toModel.unpack = .finite .positive m e hm := by
  rw [ofFloat_eq] at h
  cases hx : x.toModel.unpack with
  | notANumber | infinity _ =>
    rw [hx] at h
    cases h
  | zero sign =>
    rw [hx] at h
    obtain ⟨-, rfl, -⟩ := Binary.finite.inj h
    exact absurd hm (Nat.lt_irrefl 0)
  | finite sign m' e' hm' =>
    rw [hx] at h
    obtain ⟨hsign, rfl, rfl⟩ := Binary.finite.inj h
    cases sign with
    | positive => rfl
    | negative => cases hsign

/-! ## Packing -/

/-- The double that an unpacked one is packed to. -/
def packed (f : UnpackedFloat) : Float := ⟨Float.Model.pack f⟩

theorem unpack_packed (f : UnpackedFloat) : (packed f).toModel.unpack =
    UnpackedFloat.unpack Format.binary64 (UnpackedFloat.pack Format.binary64 f) := rfl

/-- **A double is packed from what it is unpacked to.** -/
theorem packed_unpack (x : Float) : packed x.toModel.unpack = x := by
  rw [← Float.toBits_inj]
  exact congrArg UInt64.ofBitVec (pack_unpack_of_valid x.toModel.valid)

/-- The bits of a finite double, apart from the sign. -/
theorem exists_pack_finite {m : Nat} (e : Int) (h : 0 < m) :
    ∃ (exponent : BitVec 11) (mantissa : BitVec 52), (exponent = -1#11 → mantissa = 0#52) ∧
      ∀ sign, UnpackedFloat.pack Format.binary64 (.finite sign m e h) =
        packComponents Format.binary64 sign exponent mantissa := by
  unfold UnpackedFloat.pack
  simp only []
  generalize (e + _ + _).toNat = biased
  split
  · exact ⟨-1#11, 0#52, fun _ => rfl, fun _ => rfl⟩
  · next hsmall =>
    split
    · refine ⟨BitVec.ofNat 11 biased, BitVec.ofNat 52 m, fun hexponent => ?_, fun _ => rfl⟩
      have htoNat : biased % 2 ^ 11 = 2047 := by
        rw [← BitVec.toNat_ofNat, hexponent]
        rfl
      omega
    · exact ⟨0#11, BitVec.ofNat 52 m, fun hexponent => absurd hexponent (by decide), fun _ => rfl⟩

section Components

variable (sign : Sign) (exponent : BitVec 11) (mantissa : BitVec 52)

theorem unpack_packComponents_neg :
    UnpackedFloat.unpack Format.binary64 (packComponents Format.binary64 (-sign) exponent mantissa) =
      (UnpackedFloat.unpack Format.binary64
        (packComponents Format.binary64 sign exponent mantissa)).neg := by
  unfold UnpackedFloat.unpack
  simp only [unpackSign_packComponents, unpackExponent_packComponents, unpackMantissa_packComponents,
    Sign.ofBitVec_toBitVec]
  split
  · split <;> rfl
  · split
    · split <;> rfl
    · rfl

/-- The sign of an unpacked double, which only what is no number lacks. -/
def sign? : UnpackedFloat → Option Sign
  | .notANumber => none
  | .infinity sign | .zero sign | .finite sign _ _ _ => some sign

theorem sign?_unpack_packComponents (h : exponent = -1#11 → mantissa = 0#52) :
    sign? (UnpackedFloat.unpack Format.binary64
      (packComponents Format.binary64 sign exponent mantissa)) = some sign := by
  unfold UnpackedFloat.unpack
  simp only [unpackSign_packComponents, unpackExponent_packComponents, unpackMantissa_packComponents,
    Sign.ofBitVec_toBitVec]
  split
  · next hexponent =>
    rw [if_pos (h hexponent)]
    rfl
  · split
    · split <;> rfl
    · rfl

end Components

/-- Packing keeps the sign. -/
theorem sign?_packed (f : UnpackedFloat) : sign? (packed f).toModel.unpack = sign? f := by
  rw [unpack_packed]
  cases f with
  | notANumber => exact congrArg sign? unpack_packedNaN
  | infinity s => exact sign?_unpack_packComponents s _ _ fun _ => rfl
  | zero s => exact sign?_unpack_packComponents s _ _ fun _ => rfl
  | finite s m e hm =>
    obtain ⟨exponent, mantissa, hbits, hpack⟩ := exists_pack_finite e hm
    rw [hpack]
    exact sign?_unpack_packComponents s _ _ hbits

theorem sign?_roundWithAccuracy (s : Sign) (m : Nat) (e : Int) (accuracy : Accuracy) :
    sign? (roundWithAccuracy Format.binary64 s m e accuracy) = some s := by
  unfold roundWithAccuracy
  simp only []
  split <;> rfl

/-! ## Negation -/

theorem unpack_packed_neg (f : UnpackedFloat) :
    (packed f.neg).toModel.unpack = (packed f).toModel.unpack.neg := by
  rw [unpack_packed, unpack_packed]
  cases f with
  | notANumber => exact unpack_packedNaN.trans (congrArg UnpackedFloat.neg unpack_packedNaN.symm)
  | infinity s => exact unpack_packComponents_neg s _ _
  | zero s => exact unpack_packComponents_neg s _ _
  | finite s m e hm =>
    obtain ⟨exponent, mantissa, -, hpack⟩ := exists_pack_finite e hm
    rw [UnpackedFloat.neg, hpack, hpack]
    exact unpack_packComponents_neg s _ _

theorem neg_packed (f : UnpackedFloat) : -packed f = packed f.neg := by
  rw [← packed_unpack (packed f.neg), unpack_packed_neg]
  rfl

theorem unpack_neg (x : Float) : (-x).toModel.unpack = x.toModel.unpack.neg := by
  show (packed x.toModel.unpack.neg).toModel.unpack = _
  rw [unpack_packed_neg, packed_unpack]

theorem sign?_neg (x : Float) : sign? (-x).toModel.unpack = (sign? x.toModel.unpack).map (-·) := by
  rw [unpack_neg]
  cases x.toModel.unpack <;> rfl

/-! ## Rounding to a whole number -/

/-- The bits up to those of infinity are those of a number that is not below zero. -/
theorem sign?_of_toBits_le {x : Float} (h : x.toBits.toNat ≤ 2047 * fractionCount) :
    sign? x.toModel.unpack = some .positive := by
  have hsign : ¬ signBit ≤ x.toBits.toNat := by
    rw [fractionCount] at h
    rw [signBit]
    omega
  have hdecode : Binary.ofFloat x = .infinite false ∨ ∃ m e, Binary.ofFloat x = .finite false m e := by
    unfold Binary.ofFloat
    simp only [hsign, decide_false]
    split
    · next hexponent =>
      have hfraction : x.toBits.toNat % fractionCount = 0 := by
        rw [fractionCount] at h hexponent ⊢
        omega
      rw [if_pos hfraction]
      exact .inl rfl
    · split <;> exact .inr ⟨_, _, rfl⟩
  rw [ofFloat_eq] at hdecode
  cases hx : x.toModel.unpack with
  | notANumber => simp [hx, Binary.ofUnpacked] at hdecode
  | infinity s | zero s | finite s _ _ _ =>
    cases s with
    | positive => rfl
    | negative =>
      rw [hx] at hdecode
      rcases hdecode with h | ⟨m, e, h⟩ <;> cases h

theorem sign?_nearest (num den : Nat) : sign? (nearest num den).toModel.unpack = some .positive :=
  sign?_of_toBits_le (by rw [toNat_toBits_nearest]; exact nearestBits_le num den)

/-- **Rounding to a whole number keeps the sign.** -/
theorem sign?_round (rule : WholeRule) (x : Float) :
    sign? (rule.round x).toModel.unpack = sign? x.toModel.unpack := by
  unfold WholeRule.round
  rw [ofFloat_eq]
  cases hx : x.toModel.unpack with
  | notANumber | infinity s => exact congrArg sign? hx
  | zero s | finite s m e h =>
    simp only [Binary.ofUnpacked]
    split
    · exact congrArg sign? hx
    · cases s with
      | positive => exact sign?_nearest _ _
      | negative =>
        show sign? (-nearest _ _).toModel.unpack = some .negative
        rw [sign?_neg, sign?_nearest]
        rfl

/-! ## What is no number -/

/-- Only what is no number has no sign. -/
theorem isNaN_eq (x : Float) : x.isNaN = (sign? x.toModel.unpack).isNone := by
  show x.toModel.unpack.isNaN = _
  cases x.toModel.unpack <;> rfl

theorem isNaN_round (rule : WholeRule) (x : Float) : (rule.round x).isNaN = x.isNaN := by
  rw [isNaN_eq, isNaN_eq, sign?_round]

/-- A product is a number if a finite factor that is not zero is multiplied by a number. -/
theorem isNaN_mul (x : Float) {y : Float} {s : Sign} {m : Nat} {e : Int} {hm : 0 < m}
    (hy : y.toModel.unpack = .finite s m e hm) : (x * y).isNaN = x.isNaN := by
  have hproduct : sign? (x * y).toModel.unpack =
      sign? (UnpackedFloat.mul Format.binary64 x.toModel.unpack y.toModel.unpack) := sign?_packed _
  rw [isNaN_eq, isNaN_eq, hproduct, hy]
  cases x.toModel.unpack with
  | notANumber | infinity _ | zero _ => rfl
  | finite t _ _ _ =>
    show (sign? (roundWithAccuracy Format.binary64 _ _ _ _)).isNone = _
    rw [sign?_roundWithAccuracy]
    rfl

end TradePlan
