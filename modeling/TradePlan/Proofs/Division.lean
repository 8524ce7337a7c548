import TradePlan.Proofs.Unpacking

/-!
# Division of doubles

The quotient of two doubles is the double nearest to the quotient of the numbers that they stand for,
and a count is converted to the nearest double.

    n.toFloat = nearest n.toNat 1                                            (toFloat_eq_nearest)
    x / y = nearest (m * power 2 (e - e')) (m' * power 2 (e' - e))               (div_eq_nearest)

Both keep the whole part of a quotient, and two bits about the rest of it: whether it is at least a
half, and whether there is more.  Shifts keep this form, and the bits tell how to round.
-/

namespace TradePlan

open Float.Model
open Float.Model.UnpackedFloat

/-! ## Quotients with two bits about the rest -/

/-- A quotient as its whole part and the two bits about the rest. -/
def quotientOf (num den : Nat) : ExtendedMantissa where
  mantissa := num / den
  roundBit := decide (den ≤ 2 * (num % den))
  stickyBit := decide (num % den ≠ 0 ∧ 2 * (num % den) ≠ den)

variable {num den : Nat}

theorem ofMantissaAndAccuracy_eq (hden : 0 < den) :
    ExtendedMantissa.ofMantissaAndAccuracy (num / den) (accuracyOfFraction (num % den) den) =
      quotientOf num den := by
  unfold quotientOf accuracyOfFraction
  split
  · next hzero => simp [hzero, ExtendedMantissa.ofMantissaAndAccuracy, Nat.ne_of_gt hden]
  · next hpos =>
    rcases Nat.lt_trichotomy (2 * (num % den)) den with hlt | heq | hgt
    · rw [Nat.compare_eq_lt.mpr hlt]
      simp [ExtendedMantissa.ofMantissaAndAccuracy, hpos, Nat.not_le.mpr hlt, Nat.ne_of_lt hlt]
    · rw [Nat.compare_eq_eq.mpr heq]
      simp [ExtendedMantissa.ofMantissaAndAccuracy, heq]
    · rw [Nat.compare_eq_gt.mpr hgt]
      simp [ExtendedMantissa.ofMantissaAndAccuracy, hpos, Nat.le_of_lt hgt, Nat.ne_of_gt hgt]

theorem ofMantissaAndAccuracy_exact (k : Nat) :
    ExtendedMantissa.ofMantissaAndAccuracy k .exact = quotientOf k 1 := by
  simp [ExtendedMantissa.ofMantissaAndAccuracy, quotientOf, Nat.mod_one]

theorem shiftRightOne_quotientOf (hden : 0 < den) :
    (quotientOf num den).shiftRightOne = quotientOf num (den * 2) := by
  have hrest : num % den < den := Nat.mod_lt num hden
  have hdouble : num % (den * 2) = num % den + den * (num / den % 2) := Nat.mod_mul
  unfold quotientOf ExtendedMantissa.shiftRightOne
  rw [ExtendedMantissa.mk.injEq, hdouble]
  refine ⟨Nat.div_div_eq_div_mul num den 2, ?_, ?_⟩
  · rcases Nat.mod_two_eq_zero_or_one (num / den) with hbit | hbit <;> simp [hbit] <;> omega
  · rw [Bool.eq_iff_iff, Bool.or_eq_true, decide_eq_true_eq, decide_eq_true_eq, decide_eq_true_eq]
    rcases Nat.mod_two_eq_zero_or_one (num / den) with hbit | hbit <;> rw [hbit] <;> omega

theorem shiftRight_quotientOf (hden : 0 < den) (n : Nat) :
    quotientOf num den >>> n = quotientOf num (den * 2 ^ n) := by
  show n.repeat ExtendedMantissa.shiftRightOne _ = _
  induction n with
  | zero => rw [Nat.pow_zero, Nat.mul_one, Nat.repeat]
  | succ n ih =>
    rw [Nat.repeat, ih, shiftRightOne_quotientOf (Nat.mul_pos hden (Nat.two_pow_pos n)),
      Nat.mul_assoc, ← Nat.pow_succ]

theorem roundedMantissa_quotientOf (hden : 0 < den) :
    (quotientOf num den).roundedMantissa = divHalfEven num den := by
  unfold ExtendedMantissa.roundedMantissa quotientOf divHalfEven
  rcases Nat.lt_trichotomy (2 * (num % den)) den with hlt | heq | hgt
  · rw [if_pos (.inl hlt)]
    by_cases hzero : num % den = 0 <;>
      simp [ExtendedMantissa.accuracy, Accuracy.roundToNearestEven, Nat.not_le.mpr hlt,
        Nat.ne_of_lt hlt, hzero, Nat.not_le.mpr hden]
  · simp only [heq, le_refl, decide_true, ne_eq, not_true, and_false, decide_false,
      ExtendedMantissa.accuracy, Accuracy.roundToNearestEven, lt_irrefl, true_and, false_or]
    rcases Nat.mod_two_eq_zero_or_one (num / den) with hbit | hbit <;> simp [hbit]
  · rw [if_neg (by omega)]
    have hpos : num % den ≠ 0 := by omega
    simp [ExtendedMantissa.accuracy, Accuracy.roundToNearestEven, Nat.le_of_lt hgt,
      Nat.ne_of_gt hgt, hpos]

/-! ## The bits of a rounded quotient -/

theorem toNat_packComponents (exponent : BitVec 11) (mantissa : BitVec 52) :
    (packComponents Format.binary64 .positive exponent mantissa).toNat =
      exponent.toNat * fractionCount + mantissa.toNat := by
  have hm : mantissa.toNat < 2 ^ 52 := mantissa.isLt
  show (Sign.positive.toBitVec ++ exponent ++ mantissa).toNat = _
  rw [BitVec.toNat_append, BitVec.toNat_append, ← Nat.shiftLeft_add_eq_or_of_lt hm, Nat.shiftLeft_eq]
  simp [Sign.toBitVec, fractionCount]

/-- A magnitude as an unpacked double. -/
def unpacked (m : Nat) (e : Int) : UnpackedFloat :=
  if h : m = 0 then .zero .positive else .finite .positive m e (Nat.pos_of_ne_zero h)

/-- The bits of a mantissa that is full or at the least exponent. -/
theorem toNat_pack_unpacked {m : Nat} {e : Int}
    (hfull : m.log2 = 52 ∧ -1074 ≤ e ∨ m.log2 < 52 ∧ e = -1074) :
    (UnpackedFloat.pack Format.binary64 (unpacked m e)).toNat =
      min ((e + 1074).toNat * fractionCount + m) (2047 * fractionCount) := by
  unfold unpacked
  split
  · next hzero =>
    obtain rfl : e = -1074 := by
      rw [hzero] at hfull
      simpa using hfull
    rw [hzero]
    decide
  next hne =>
  have hbias : (Format.binary64.exponentBias : Int) + Format.binary64.mantissaBitsWithoutImplicit
      = 1075 := rfl
  have hbits : Format.binary64.mantissaBits = 53 := rfl
  have hlow : 2 ^ m.log2 ≤ m := Nat.log2_self_le hne
  have hhigh : m < 2 ^ (m.log2 + 1) := Nat.lt_log2_self
  unfold UnpackedFloat.pack fractionCount
  simp only [Int.add_assoc, hbias, hbits]
  split
  · next hhuge =>
    obtain ⟨hlog, -⟩ : m.log2 = 52 ∧ -1074 ≤ e := by omega
    rw [hlog] at hlow
    rw [packedInfinity, toNat_packComponents]
    simp [fractionCount]
    omega
  · next hsmall =>
    split
    · next hlog =>
      rw [show m.log2 = 52 by omega] at hlow hhigh
      rw [toNat_packComponents, BitVec.toNat_ofNat, BitVec.toNat_ofNat, fractionCount]
      omega
    · next hlog =>
      have hlt : m < 2 ^ 52 := (Nat.log2_lt hne).mp (by omega)
      rw [toNat_packComponents, BitVec.toNat_ofNat, fractionCount]
      simp
      omega

/-! ## Rounding a quotient -/

/-- The exponent at which a quotient with a whole part is rounded. -/
def roundingExponent (whole : Nat) (e : Int) : Int := max (whole.log2 + e - 52) (-1074)

theorem binary64_targetExponent (k : Int) :
    Format.binary64.targetExponent k = max (k - 53) (-1074) := by
  have hbits : Format.binary64.mantissaBits = 53 := rfl
  have hmin : Format.binary64.minExponent = -1074 := rfl
  rw [Format.targetExponent, hbits, hmin]
  rfl

theorem targetExponent_eq (whole : Nat) (e : Int) :
    Format.binary64.targetExponent (totalExponent whole e) = roundingExponent whole e := by
  rw [binary64_targetExponent]
  unfold totalExponent roundingExponent
  omega

theorem log2_mul_two_pow {m : Nat} (hm : 0 < m) (k : Nat) : (m * 2 ^ k).log2 = m.log2 + k := by
  have hpos : m * 2 ^ k ≠ 0 := Nat.ne_of_gt (Nat.mul_pos hm (Nat.two_pow_pos k))
  rw [Nat.log2_eq_iff hpos, Nat.pow_add, Nat.add_right_comm, Nat.pow_add]
  exact ⟨Nat.mul_le_mul_right _ (Nat.log2_self_le (Nat.ne_of_gt hm)),
    Nat.mul_lt_mul_of_pos_right Nat.lt_log2_self (Nat.two_pow_pos k)⟩

/-- More places do not change the exponent of rounding. -/
theorem roundingExponent_mul_two_pow {m : Nat} (hm : 0 < m) (e : Int) (k : Nat) :
    roundingExponent (m * 2 ^ k) (e - k) = roundingExponent m e := by
  unfold roundingExponent
  rw [log2_mul_two_pow hm]
  omega

theorem div_pow_lt (whole : Nat) (e : Int) :
    whole / 2 ^ (roundingExponent whole e - e).toNat < 2 ^ 53 := by
  rw [Nat.div_lt_iff_lt_mul (Nat.two_pow_pos _), ← Nat.pow_add]
  refine Nat.lt_of_lt_of_le Nat.lt_log2_self (Nat.pow_le_pow_right (by decide) ?_)
  unfold roundingExponent
  omega

theorem le_div_pow {whole : Nat} {e : Int} (hfine : e ≤ roundingExponent whole e)
    (hleast : roundingExponent whole e ≠ -1074) :
    2 ^ 52 ≤ whole / 2 ^ (roundingExponent whole e - e).toNat := by
  unfold roundingExponent at hfine hleast ⊢
  have hne : whole ≠ 0 := by
    rintro rfl
    simp at hfine hleast
    omega
  rw [Nat.le_div_iff_mul_le (Nat.two_pow_pos _), ← Nat.pow_add]
  refine Nat.le_trans (Nat.pow_le_pow_right (by decide) ?_) (Nat.log2_self_le hne)
  omega

theorem divHalfEven_cases (num den : Nat) :
    divHalfEven num den = num / den ∨ divHalfEven num den = num / den + 1 := by
  unfold divHalfEven
  simp only []
  split
  · exact .inl rfl
  · exact .inr rfl

theorem shiftToTargetExponent_eq (hden : 0 < den) {e : Int}
    (hfine : e ≤ roundingExponent (num / den) e) :
    shiftToTargetExponent Format.binary64 (num / den) e (accuracyOfFraction (num % den) den) =
      (quotientOf num (den * 2 ^ (roundingExponent (num / den) e - e).toNat),
        roundingExponent (num / den) e) := by
  unfold shiftToTargetExponent shiftToExponent
  simp only [targetExponent_eq]
  rw [ofMantissaAndAccuracy_eq hden, shiftRight_quotientOf hden, Int.toNat_of_nonneg (by omega)]
  congr 1
  omega

theorem divHalfEven_le (num den : Nat) (e : Int) :
    divHalfEven num (den * 2 ^ (roundingExponent (num / den) e - e).toNat) ≤ 2 ^ 53 := by
  have hlt := div_pow_lt (num / den) e
  rw [Nat.div_div_eq_div_mul] at hlt
  have := divHalfEven_cases num (den * 2 ^ (roundingExponent (num / den) e - e).toNat)
  omega

/-- Above the least exponent a rounded mantissa is full. -/
theorem le_divHalfEven {e : Int} (hfine : e ≤ roundingExponent (num / den) e)
    (hleast : roundingExponent (num / den) e ≠ -1074) :
    2 ^ 52 ≤ divHalfEven num (den * 2 ^ (roundingExponent (num / den) e - e).toNat) := by
  have hle := le_div_pow hfine hleast
  rw [Nat.div_div_eq_div_mul] at hle
  have := divHalfEven_cases num (den * 2 ^ (roundingExponent (num / den) e - e).toNat)
  omega

theorem log2_le_of_lt {r : Nat} (h : r < 2 ^ 53) : r.log2 ≤ 52 := by
  by_cases hzero : r = 0
  · rw [hzero]
    decide
  · exact Nat.le_of_lt_succ ((Nat.log2_lt hzero).mpr h)

/-- A mantissa is shifted by one place if rounding has made it too long. -/
theorem shiftToTargetExponent_exact {r : Nat} {t : Int} (hleast : -1074 ≤ t) (hr : r ≤ 2 ^ 53) :
    shiftToTargetExponent Format.binary64 r t .exact =
      if r = 2 ^ 53 then (quotientOf (2 ^ 52) 1, t + 1) else (quotientOf r 1, t) := by
  unfold shiftToTargetExponent shiftToExponent
  simp only [targetExponent_eq, ofMantissaAndAccuracy_exact, roundingExponent]
  split
  · next hfull =>
    have hlog : r.log2 = 53 := by rw [hfull]; rfl
    have hshift : (max ((r.log2 : Int) + t - 52) (-1074) - t).toNat = 1 := by omega
    rw [hshift, shiftRight_quotientOf Nat.one_pos, hfull]
    rfl
  · next hshort =>
    have hlog := log2_le_of_lt (Nat.lt_of_le_of_ne hr hshort)
    have hshift : (max ((r.log2 : Int) + t - 52) (-1074) - t).toNat = 0 := by omega
    rw [hshift, shiftRight_quotientOf Nat.one_pos]
    simp

/-- The rounded quotient, where a carry moves the mantissa by one place. -/
theorem roundWithAccuracy_eq (hden : 0 < den) {e : Int}
    (hfine : e ≤ roundingExponent (num / den) e) :
    let t := roundingExponent (num / den) e
    let r := divHalfEven num (den * 2 ^ (t - e).toNat)
    roundWithAccuracy Format.binary64 .positive (num / den) e (accuracyOfFraction (num % den) den) =
      if r = 2 ^ 53 then unpacked (2 ^ 52) (t + 1) else unpacked r t := by
  intro t r
  have hround : roundWithAccuracy Format.binary64 .positive (num / den) e
      (accuracyOfFraction (num % den) den) =
        unpacked (shiftToTargetExponent Format.binary64 r t .exact).1.mantissa
          (shiftToTargetExponent Format.binary64 r t .exact).2 := by
    unfold roundWithAccuracy
    rw [shiftToTargetExponent_eq hden hfine]
    simp only [roundedMantissa_quotientOf (Nat.mul_pos hden (Nat.two_pow_pos _))]
    rfl
  have hleast : -1074 ≤ t := Int.le_max_right _ _
  have hr : r ≤ 2 ^ 53 := divHalfEven_le num den e
  rw [hround, shiftToTargetExponent_exact hleast hr]
  split
  · rfl
  · simp [quotientOf]

/-! ## The nearest double -/

/-- The exponent at which a quotient is rounded is the spacing of doubles near it. -/
theorem spacing_eq (hnum : 0 < num) (hden : 0 < den) {e : Int}
    (hfine : e ≤ roundingExponent (num / den) e) :
    max (floorLog2 (num * power 2 e) (den * power 2 (-e)) - 52) (-1074) =
      roundingExponent (num / den) e := by
  have hnum' : 0 < num * power 2 e := Nat.mul_pos hnum (power_pos (by decide) e)
  have hden' : 0 < den * power 2 (-e) := Nat.mul_pos hden (power_pos (by decide) (-e))
  have hfloor := (floorLog2_eq_iff hnum' hden').mp rfl
  unfold roundingExponent at hfine ⊢
  by_cases hwhole : num / den = 0
  · have hlt : floorLog2 (num * power 2 e) (den * power 2 (-e)) < e := by
      by_contra hle
      have hone := atLeast_of_le (show e + 0 ≤ _ by omega) hfloor.1
      rw [atLeast_scale, atLeast_iff_le_div hden (le_refl 0), hwhole] at hone
      exact absurd hone (by decide)
    rw [hwhole] at hfine ⊢
    simp only [Nat.log2_zero] at hfine ⊢
    omega
  · have hfloor : floorLog2 (num * power 2 e) (den * power 2 (-e)) = e + (num / den).log2 := by
      rw [floorLog2_eq_iff hnum' hden', atLeast_scale, Int.add_assoc, atLeast_scale,
        atLeast_iff_le_div hden (by omega), atLeast_iff_le_div hden (by omega), Nat.not_le]
      exact ⟨Nat.log2_self_le hwhole, Nat.lt_log2_self⟩
    omega

/-- Rounding gives the nearest double. -/
theorem toNat_roundWithAccuracy (hnum : 0 < num) (hden : 0 < den) {e : Int}
    (hfine : e ≤ roundingExponent (num / den) e) :
    (UnpackedFloat.pack Format.binary64 (roundWithAccuracy Format.binary64 .positive (num / den) e
      (accuracyOfFraction (num % den) den))).toNat =
        nearestBits (num * power 2 e) (den * power 2 (-e)) := by
  have hnum' : 0 < num * power 2 e := Nat.mul_pos hnum (power_pos (by decide) e)
  have hr := divHalfEven_le num den e
  have hfull := @le_divHalfEven num den e hfine
  have hleast : -1074 ≤ roundingExponent (num / den) e := Int.le_max_right _ _
  rw [nearestBits, if_neg (Nat.ne_of_gt hnum'), spacing_eq hnum hden hfine,
    roundWithAccuracy_eq hden hfine]
  generalize roundingExponent (num / den) e = t at *
  have hmantissa : divHalfEven (num * power 2 e * power 2 (-t)) (den * power 2 (-e) * power 2 t) =
      divHalfEven num (den * 2 ^ (t - e).toNat) := by
    rw [← divHalfEven_mul num _ (Nat.two_pow_pos (e.toNat + (-t).toNat))]
    simp only [power_eq_pow, Nat.mul_assoc, ← Nat.pow_add]
    congr 3
    omega
  simp only [hmantissa]
  generalize divHalfEven num (den * 2 ^ (t - e).toNat) = r at *
  split
  · next hcarry =>
    rw [toNat_pack_unpacked (.inl ⟨rfl, by omega⟩), hcarry, fractionCount]
    omega
  · next hshort =>
    have hlog := log2_le_of_lt (Nat.lt_of_le_of_ne hr hshort)
    refine toNat_pack_unpacked ?_
    by_cases ht : t = -1074
    · omega
    · have hne : r ≠ 0 := by
        have := hfull ht
        omega
      have := (Nat.le_log2 hne).mpr (hfull ht)
      omega

/-! ## Counts and quotients -/

/-- A double with the bits of the nearest one. -/
theorem eq_nearest_of_toNat {f : UnpackedFloat} {num den : Nat}
    (h : (UnpackedFloat.pack Format.binary64 f).toNat = nearestBits num den) :
    packed f = nearest num den := by
  rw [← Float.toBits_inj, ← UInt64.toNat_inj, toNat_toBits_nearest]
  exact h

theorem nearest_scale (hden : 0 < den) (t : Int) (k : Nat) :
    nearest (num * 2 ^ k * power 2 t) (den * power 2 (-t)) =
      nearest (num * power 2 (t + k)) (den * power 2 (-(t + k))) := by
  simp only [power_eq_pow, Nat.mul_assoc, ← Nat.pow_add]
  exact nearest_two_pow hden (by omega)

/-- A quotient that is given finely enough is rounded to the nearest double. -/
theorem round_eq_nearest (hnum : 0 < num) (hden : 0 < den) {t : Int} (k : Nat)
    (hfine : t ≤ roundingExponent (num * 2 ^ k / den) t) :
    packed (roundWithAccuracy Format.binary64 .positive (num * 2 ^ k / den) t
        (accuracyOfFraction (num * 2 ^ k % den) den)) =
      nearest (num * power 2 (t + k)) (den * power 2 (-(t + k))) := by
  have hpos : 0 < num * 2 ^ k := Nat.mul_pos hnum (Nat.two_pow_pos k)
  rw [eq_nearest_of_toNat (toNat_roundWithAccuracy hpos hden hfine), nearest_scale hden]

/-- **A count is converted to the nearest double.** -/
theorem toFloat_eq_nearest (n : UInt64) : n.toFloat = nearest n.toNat 1 := by
  show packed (UnpackedFloat.ofInt Format.binary64 n.toNat) = _
  unfold UnpackedFloat.ofInt UnpackedFloat.normalize
  by_cases hn : n.toNat = 0
  · rw [hn, nearest_zero]
    decide +kernel
  · have hpos : 0 < n.toNat := Nat.pos_of_ne_zero hn
    rw [Int.compare_eq_gt.mpr (Int.natCast_pos.mpr hpos)]
    simp only [Int.toNat_natCast]
    unfold UnpackedFloat.round decreaseExponent
    simp only [targetExponent_eq, Nat.shiftLeft_eq]
    generalize hk : (0 - roundingExponent n.toNat 0).toNat = k
    have hround := round_eq_nearest (t := 0 - k) hpos Nat.one_pos k
    rw [Nat.div_one, Nat.mod_one, Int.sub_add_cancel] at hround
    refine (hround ?_).trans ?_
    · rw [roundingExponent_mul_two_pow hpos]
      omega
    · simp [power_zero]

/-- **A quotient of doubles is the nearest double.** -/
theorem div_eq_nearest {x y : Float} {m m' : Nat} {e e' : Int}
    (hx : Binary.ofFloat x = .finite false m e) (hy : Binary.ofFloat y = .finite false m' e')
    (hm : 0 < m) (hm' : 0 < m') :
    x / y = nearest (m * power 2 (e - e')) (m' * power 2 (e' - e)) := by
  show packed (UnpackedFloat.div Format.binary64 x.toModel.unpack y.toModel.unpack) = _
  rw [unpack_of_ofFloat hm hx, unpack_of_ofFloat hm' hy]
  show packed (roundWithAccuracy Format.binary64 .positive (divCore _ _ _ _ _).1
    (divCore _ _ _ _ _).2.1 (divCore _ _ _ _ _).2.2) = _
  unfold divCore
  simp only [Nat.shiftLeft_eq, binary64_targetExponent, totalExponent]
  generalize ht : min (e - e') (max _ _) = t
  generalize hk : (e - e' - t).toNat = k
  have hscale : t + k = e - e' := by omega
  rw [round_eq_nearest hm hm', hscale, Int.neg_sub]
  -- above the least exponent the quotient has at least 53 binary digits
  by_cases hleast : t ≤ -1074
  · exact Int.le_trans hleast (Int.le_max_right _ _)
  · have hle : 2 ^ 52 ≤ m * 2 ^ k / m' := by
      rw [Nat.le_div_iff_mul_le hm']
      calc 2 ^ 52 * m' ≤ 2 ^ 52 * 2 ^ (m'.log2 + 1) :=
            Nat.mul_le_mul_left _ (Nat.le_of_lt Nat.lt_log2_self)
        _ = 2 ^ (m'.log2 + 53) := by rw [← Nat.pow_add, Nat.add_comm, Nat.add_assoc]
        _ ≤ 2 ^ (m.log2 + k) := Nat.pow_le_pow_right (by decide) (by omega)
        _ = 2 ^ m.log2 * 2 ^ k := Nat.pow_add ..
        _ ≤ m * 2 ^ k := Nat.mul_le_mul_right _ (Nat.log2_self_le (Nat.ne_of_gt hm))
    have hlog := (Nat.le_log2 (by omega)).mpr hle
    unfold roundingExponent
    omega

end TradePlan
