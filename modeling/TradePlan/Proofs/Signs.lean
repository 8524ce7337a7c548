import TradePlan.Proofs.NumberOrder
import TradePlan.Proofs.Unpacking

/-!
# Signs of doubles

Whether a double is above or below zero, and what arithmetic keeps of it.  A result may be too small
for a sign: it is a zero then, or it is no number.

    0 < x ↔ signum x = 1                                                    (zero_lt_iff_signum)
    x < 0 ↔ signum x = -1                                                   (lt_zero_iff_signum)
    signum (x * y) = 0 ∨ signum (x * y) = signum x * signum y                       (signum_mul)
    -x / y = -(x / y)                                                           (double_neg_div)
    -x * -y = x * y                                                         (double_neg_mul_neg)
-/

namespace TradePlan

open Float.Model
open Float.Model.UnpackedFloat

/-! ## The sign of a double -/

/-- One, or one below zero. -/
def Sign.toSignType : Sign → SignType
  | .positive => 1
  | .negative => -1

/-- Whether an unpacked double is above or below zero.  What is no number is neither. -/
def signOf : UnpackedFloat → SignType
  | .infinity sign | .finite sign _ _ _ => Sign.toSignType sign
  | .zero _ | .notANumber => 0

/-- Whether a double is above or below zero. -/
def signum (x : Float) : SignType := signOf x.toModel.unpack

theorem iff_signum (x : Float) : (0 < x ↔ signum x = 1) ∧ (x < 0 ↔ signum x = -1) := by
  have hzero : place 0 = some (toLex (0, toLex (0, 0))) := rfl
  rw [lt_iff_place, lt_iff_place, hzero, place, signum]
  cases x.toModel.unpack with
  | notANumber => simp [placeOf, signOf]
  | infinity s | zero s | finite s m e h =>
    cases s <;> simp [placeOf, signOf, Sign.toSignType, Prod.Lex.toLex_lt_toLex]

theorem zero_lt_iff_signum (x : Float) : 0 < x ↔ signum x = 1 := (iff_signum x).1

theorem lt_zero_iff_signum (x : Float) : x < 0 ↔ signum x = -1 := (iff_signum x).2

/-- A double above zero is infinite or has a mantissa. -/
theorem unpack_of_pos {x : Float} (h : 0 < x) :
    x.toModel.unpack = .infinity .positive ∨
      ∃ m e hm, x.toModel.unpack = .finite .positive m e hm := by
  rw [zero_lt_iff_signum, signum] at h
  cases hx : x.toModel.unpack with
  | notANumber | zero _ =>
    rw [hx] at h
    cases h
  | infinity s =>
    cases s with
    | positive => exact .inl rfl
    | negative =>
      rw [hx] at h
      cases h
  | finite s m e hm =>
    cases s with
    | positive => exact .inr ⟨m, e, hm, rfl⟩
    | negative =>
      rw [hx] at h
      cases h

/-- The sign that is written is the sign, unless the double is a zero. -/
theorem signOf_cases {f : UnpackedFloat} {s : Sign} (h : sign? f = some s) :
    signOf f = 0 ∨ signOf f = Sign.toSignType s := by
  cases f with
  | notANumber => cases h
  | zero t => exact .inl rfl
  | infinity t | finite t _ _ _ =>
    obtain rfl := Option.some.inj h
    exact .inr rfl

/-- Packing keeps the sign, unless the double is too small for one. -/
theorem signum_packed {f : UnpackedFloat} {sign : SignType} (h : signOf f = 0 ∨ signOf f = sign) :
    signum (packed f) = 0 ∨ signum (packed f) = sign := by
  have hkept : signum (packed f) = 0 ∨ signum (packed f) = signOf f := by
    have hsign := sign?_packed f
    cases f with
    | notANumber => exact .inl rfl
    | infinity s | finite s _ _ _ => exact signOf_cases hsign
    | zero s => cases s <;> exact .inl rfl
  rcases hkept with hzero | hkept
  · exact .inl hzero
  · exact h.imp hkept.trans hkept.trans

/-! ## Products and quotients -/

theorem toSignType_mul (s t : Sign) :
    Sign.toSignType (s * t) = Sign.toSignType s * Sign.toSignType t := by
  cases s <;> cases t <;> decide

theorem toSignType_div (s t : Sign) :
    Sign.toSignType (s / t) = Sign.toSignType s * Sign.toSignType t := by
  cases s <;> cases t <;> decide

theorem signOf_mul (a b : UnpackedFloat) :
    signOf (UnpackedFloat.mul Format.binary64 a b) = 0 ∨
      signOf (UnpackedFloat.mul Format.binary64 a b) = signOf a * signOf b := by
  cases a with
  | notANumber => exact .inl rfl
  | zero s => cases b <;> exact .inl rfl
  | infinity s =>
    cases b with
    | notANumber | zero _ => exact .inl rfl
    | infinity t | finite t _ _ _ => exact .inr (toSignType_mul s t)
  | finite s m e hm =>
    cases b with
    | notANumber | zero _ => exact .inl rfl
    | infinity t => exact .inr (toSignType_mul s t)
    | finite t _ _ _ =>
      simp only [signOf, ← toSignType_mul]
      exact signOf_cases (sign?_roundWithAccuracy _ _ _ _)

/-- A quotient by a zero may be infinite, which is no sign of the factors. -/
theorem signOf_div (a : UnpackedFloat) {b : UnpackedFloat} (hb : signOf b ≠ 0) :
    signOf (UnpackedFloat.div Format.binary64 a b) = 0 ∨
      signOf (UnpackedFloat.div Format.binary64 a b) = signOf a * signOf b := by
  cases b with
  | notANumber | zero _ => exact absurd rfl hb
  | infinity t => cases a <;> exact .inl rfl
  | finite t _ _ _ =>
    cases a with
    | notANumber | zero _ => exact .inl rfl
    | infinity s => exact .inr (toSignType_div s t)
    | finite s _ _ _ =>
      simp only [signOf, ← toSignType_div]
      exact signOf_cases (sign?_roundWithAccuracy _ _ _ _)

/-- **A product has the sign of its factors, unless it is too small for one.** -/
theorem signum_mul (x y : Float) : signum (x * y) = 0 ∨ signum (x * y) = signum x * signum y :=
  signum_packed (signOf_mul x.toModel.unpack y.toModel.unpack)

/-- **A quotient has the sign of its parts, unless it is too small for one.** -/
theorem signum_div (x : Float) {y : Float} (hy : signum y ≠ 0) :
    signum (x / y) = 0 ∨ signum (x / y) = signum x * signum y :=
  signum_packed (signOf_div x.toModel.unpack hy)

/-! ## Rounding down -/

/-- Rounding down keeps the sign, unless there is no whole number left. -/
theorem signum_round_down (x : Float) :
    signum (WholeRule.down.round x) = 0 ∨ signum (WholeRule.down.round x) = signum x := by
  have hsign := sign?_round .down x
  cases hx : x.toModel.unpack with
  | notANumber | infinity s =>
    have hround : WholeRule.down.round x = x := by
      unfold WholeRule.round
      rw [ofFloat_eq, hx]
      rfl
    rw [hround]
    exact .inr rfl
  | zero s =>
    left
    rw [← packed_unpack x, hx]
    cases s <;> decide +kernel
  | finite s m e h =>
    rw [hx] at hsign
    rw [signum, signum, hx]
    exact signOf_cases hsign

/-! ## Negation -/

theorem roundWithAccuracy_neg (s : Sign) (m : Nat) (e : Int) (accuracy : Accuracy) :
    roundWithAccuracy Format.binary64 (-s) m e accuracy =
      (roundWithAccuracy Format.binary64 s m e accuracy).neg := by
  unfold roundWithAccuracy
  simp only []
  split <;> rfl

theorem neg_div_unpacked (a b : UnpackedFloat) :
    UnpackedFloat.div Format.binary64 a.neg b = (UnpackedFloat.div Format.binary64 a b).neg := by
  have hsign : ∀ s t : Sign, -s / t = -(s / t) := fun s t => by cases s <;> cases t <;> rfl
  cases a with
  | notANumber => rfl
  | infinity s | zero s =>
    cases b with
    | notANumber => rfl
    | infinity t | zero t | finite t _ _ _ => cases s <;> cases t <;> rfl
  | finite s _ _ _ =>
    cases b with
    | notANumber => rfl
    | infinity t | zero t => cases s <;> cases t <;> rfl
    | finite t _ _ _ =>
      show roundWithAccuracy _ (-s / t) _ _ _ = _
      rw [hsign, roundWithAccuracy_neg]
      rfl

theorem neg_mul_neg_unpacked (a b : UnpackedFloat) :
    UnpackedFloat.mul Format.binary64 a.neg b.neg = UnpackedFloat.mul Format.binary64 a b := by
  have hsign : ∀ s t : Sign, -s * -t = s * t := fun s t => by cases s <;> cases t <;> rfl
  cases a with
  | notANumber => rfl
  | infinity s | zero s | finite s _ _ _ =>
    cases b with
    | notANumber => rfl
    | infinity t | zero t | finite t _ _ _ =>
      simp only [UnpackedFloat.neg, UnpackedFloat.mul, hsign]

theorem double_neg_div (x y : Float) : -x / y = -(x / y) := by
  show packed (UnpackedFloat.div Format.binary64 (-x).toModel.unpack y.toModel.unpack) =
    -packed (UnpackedFloat.div Format.binary64 x.toModel.unpack y.toModel.unpack)
  rw [unpack_neg, neg_div_unpacked, neg_packed]

theorem double_neg_mul_neg (x y : Float) : -x * -y = x * y := by
  show packed (UnpackedFloat.mul Format.binary64 (-x).toModel.unpack (-y).toModel.unpack) =
    packed (UnpackedFloat.mul Format.binary64 x.toModel.unpack y.toModel.unpack)
  rw [unpack_neg, unpack_neg, neg_mul_neg_unpacked]

end TradePlan
