import TradePlan.Proofs.Division
import TradePlan.Proofs.RuleFiles

/-!
# Short numbers in rule files

The reader of a rule file rounds twice: it converts the digits of a number to a double, and divides by
a power of ten.  Few digits and a small power are not rounded, so then the division gives the double
nearest to the number, and the number reads back.

    d.IsShort → numberValue? (numberLayout.decimal d) = some d.toFloat        (numberValue?_decimal)
    isShort x = true → ReadsBack x                                            (readsBack_of_isShort)
-/

namespace TradePlan

/-! ## Exact doubles -/

def StandsFor (x : Float) (n : Nat) : Prop :=
  ∃ m e, 0 < m ∧ Binary.ofFloat x = .finite false m e ∧ m * power 2 e = n * power 2 (-e)

theorem ofFloat_nearest {m : Nat} {e : Int} (hfull : m.log2 = 52) (hlow : -1074 ≤ e)
    (hhigh : e ≤ 971) : Binary.ofFloat (nearest (m * power 2 e) (power 2 (-e))) = .finite false m e := by
  have hm : m ≠ 0 := by
    rintro rfl
    simp at hfull
  obtain ⟨hle, hlt⟩ := (Nat.log2_eq_iff hm).mp hfull
  obtain ⟨k, rfl⟩ : ∃ k : Nat, e = k - 1074 := ⟨(e + 1074).toNat, by omega⟩
  have hbits : nearestBits (m * power 2 (k - 1074)) (power 2 (-(k - 1074))) =
      k * fractionCount + m := by
    rw [nearestBits_dyadic (Nat.pos_of_ne_zero hm) (by omega), fractionCount]
    omega
  have hexponent : (k * fractionCount + m) / fractionCount % 2048 = k + 1 := by
    rw [fractionCount]
    omega
  have hfraction : fractionCount + (k * fractionCount + m) % fractionCount = m := by
    rw [fractionCount]
    omega
  have hsign : ¬ signBit ≤ k * fractionCount + m := by
    rw [signBit, fractionCount]
    omega
  unfold Binary.ofFloat
  simp only [toNat_toBits_nearest, hbits, hexponent, hfraction, hsign, decide_false]
  rw [if_neg (by omega), if_neg (by omega), Binary.finite.injEq]
  exact ⟨rfl, rfl, by omega⟩

/-- A count of at most 53 bits with zeros behind it is a double. -/
theorem standsFor_nearest {c j : Nat} (hc : 0 < c) (hlt : c < 2 ^ 53) (hj : j ≤ 900) :
    StandsFor (nearest (c * 2 ^ j) 1) (c * 2 ^ j) := by
  have hlog := log2_le_of_lt hlt
  obtain ⟨k, hk⟩ : ∃ k, c.log2 + k = 52 := ⟨52 - c.log2, by omega⟩
  have hfull : (c * 2 ^ k).log2 = 52 := (log2_mul_two_pow hc k).trans hk
  have hvalue : c * 2 ^ k * power 2 (j - k) = c * 2 ^ j * power 2 (-(j - k)) := by
    simp only [power_eq_pow, Nat.mul_assoc, ← Nat.pow_add]
    congr 2
    omega
  have hnearest : nearest (c * 2 ^ k * power 2 (j - k)) (power 2 (-(j - k))) = nearest (c * 2 ^ j) 1 :=
    nearest_eq_of_mul_eq (power_pos (by decide) _) Nat.one_pos (by rw [Nat.mul_one, hvalue])
  refine ⟨c * 2 ^ k, j - k, Nat.mul_pos hc (Nat.two_pow_pos k), ?_, hvalue⟩
  rw [← hnearest]
  exact ofFloat_nearest hfull (by omega) (by omega)

theorem div_of_standsFor {x y : Float} {a b : Nat} (hx : StandsFor x a) (hy : StandsFor y b)
    (hb : 0 < b) : x / y = nearest a b := by
  obtain ⟨m, e, hm, hx, ha⟩ := hx
  obtain ⟨m', e', hm', hy, hb'⟩ := hy
  rw [div_eq_nearest hx hy hm hm']
  refine nearest_eq_of_mul_eq (Nat.mul_pos hm' (power_pos (by decide) _)) hb ?_
  have hpow : power 2 (-e) * power 2 e' * power 2 (e - e') =
      power 2 (e' - e) * power 2 e * power 2 (-e') := by
    simp only [power_eq_pow, ← Nat.pow_add]
    congr 1
    omega
  refine Nat.eq_of_mul_eq_mul_right
    (Nat.mul_pos (power_pos (show 0 < 2 by decide) e) (power_pos (show 0 < 2 by decide) (-e'))) ?_
  calc m * power 2 (e - e') * b * (power 2 e * power 2 (-e'))
      = m * power 2 e * (b * power 2 (-e')) * power 2 (e - e') := by ring
    _ = a * m' * (power 2 (-e) * power 2 e' * power 2 (e - e')) := by rw [ha, ← hb']; ring
    _ = a * (m' * power 2 (e' - e)) * (power 2 e * power 2 (-e')) := by rw [hpow]; ring

/-! ## Digits that fit a count -/

theorem Decimal.toFloat_mk_one (k : Nat) (hk : k ≤ 22) :
    Decimal.toFloat ⟨1, k⟩ = nearest (10 ^ k) 1 := by
  have hlog : Nat.log2 1 = 0 := by decide
  rw [Decimal.toFloat_of_small Nat.one_ne_zero (by simp only [hlog]; omega) (by simp only []; omega),
    power_of_nonpos (show -(k : Int) ≤ 0 by omega), Nat.one_mul]
  rfl

theorem Decimal.toFloat_mk_neg (n : Nat) {k : Nat} (hk : k ≤ 22) :
    Decimal.toFloat ⟨n, -k⟩ = nearest n (10 ^ k) := by
  by_cases hn : n = 0
  · rw [Decimal.toFloat, if_pos hn, hn, nearest_zero]
  · rw [Decimal.toFloat_of_small hn (by simp only []; omega) (by simp only []; omega),
      power_of_nonpos (show -(k : Int) ≤ 0 by omega), Nat.mul_one, Int.neg_neg]
    rfl

/-- Zero divided by a double is zero. -/
theorem double_zero_div {y : Float} {m : Nat} {e : Int} (hm : 0 < m)
    (hy : Binary.ofFloat y = .finite false m e) : 0.0 / y = 0.0 := by
  show packed (Float.Model.UnpackedFloat.div Float.Model.Format.binary64
    (0.0 : Float).toModel.unpack y.toModel.unpack) = _
  rw [unpack_of_ofFloat hm hy]
  rfl

/-- A short count and a small power of ten are doubles, so their quotient is rounded once. -/
theorem toFloat_div_toFloat {n k : Nat} (hlt : n < 2 ^ 53) (hk : k ≤ 22) :
    (UInt64.ofNat n).toFloat / Decimal.toFloat ⟨1, k⟩ = nearest n (10 ^ k) := by
  have hfive : 5 ^ k < 2 ^ 53 :=
    Nat.lt_of_le_of_lt (Nat.pow_le_pow_right (by decide) hk) (by decide)
  have hten : 10 ^ k = 5 ^ k * 2 ^ k := Nat.mul_pow 5 2 k
  have hpower := @standsFor_nearest (5 ^ k) k (Nat.pow_pos (by decide)) hfive (by omega)
  have hcount : (UInt64.ofNat n).toNat = n :=
    UInt64.toNat_ofNat_of_lt (Nat.lt_trans hlt (by decide))
  rw [← hten] at hpower
  rw [toFloat_eq_nearest, hcount, Decimal.toFloat_mk_one k hk]
  by_cases hn : n = 0
  · obtain ⟨m, e, hm, hy, -⟩ := hpower
    rw [hn, nearest_zero, nearest_zero, double_zero_div hm hy]
  · have hexact := @standsFor_nearest n 0 (Nat.pos_of_ne_zero hn) hlt (by omega)
    rw [Nat.pow_zero, Nat.mul_one] at hexact
    exact div_of_standsFor hexact hpower (Nat.pow_pos (by decide))

namespace Json

theorem le_ofDigitChars (cs : List Char) (n : Nat) : n ≤ Nat.ofDigitChars 10 cs n := by
  induction cs generalizing n with
  | nil => exact Nat.le_refl n
  | cons c cs ih =>
    rw [Nat.ofDigitChars_cons]
    refine Nat.le_trans ?_ (ih _)
    omega

theorem appendDigits_eq {cs : List Char} {n : Nat} (h : Nat.ofDigitChars 10 cs n ≤ maxDigits) :
    appendDigits n cs = (Nat.ofDigitChars 10 cs n, []) := by
  induction cs generalizing n with
  | nil => rfl
  | cons c cs ih =>
    rw [Nat.ofDigitChars_cons, Nat.mul_comm] at h
    have hnext := Nat.le_trans (le_ofDigitChars cs _) h
    rw [appendDigits, if_neg (Nat.not_lt.mpr hnext), ih h, Nat.ofDigitChars_cons, Nat.mul_comm 10]

theorem scale?_of_short {n k : Nat} (hn : n < 2 ^ 53) (hpos : 0 < k) (hk : k ≤ 22) :
    scale? (UInt64.ofNat n).toFloat (-k) = some (Decimal.toFloat ⟨n, -k⟩) := by
  rw [scale?_of_neg _ hpos (by omega), toFloat_div_toFloat hn hk, Decimal.toFloat_mk_neg n hk]

/-- A number of few digits with a point among them, or with a negative power, is rounded once. -/
theorem magnitude?_eq {negative : Bool} {whole fraction : List Char} {power : Option (Bool × List Char)}
    {n k : Nat} (hvalue : decimalOf whole fraction power = ⟨n, -k⟩) (hn : n < 2 ^ 53) (hpos : 0 < k)
    (hk : k ≤ 22) (hpower : ∀ digits, power ≠ some (false, digits)) :
    NumberParts.magnitude? ⟨negative, whole, fraction, power⟩ = some (Decimal.toFloat ⟨n, -k⟩) := by
  have htotal : Nat.ofDigitChars 10 fraction (Nat.ofDigitChars 10 whole 0) = n := by
    rw [← Nat.ofDigitChars_append]
    cases power <;> exact congrArg Decimal.digits hvalue
  have hmax : Nat.ofDigitChars 10 fraction (Nat.ofDigitChars 10 whole 0) ≤ maxDigits := by
    rw [htotal, maxDigits]
    omega
  rw [NumberParts.magnitude?]
  simp only [appendDigits_eq (Nat.le_trans (le_ofDigitChars fraction _) hmax), appendDigits_eq hmax,
    htotal, List.length_nil, Nat.sub_zero, Int.natCast_zero, Int.zero_sub]
  cases power with
  | none =>
    have hplaces : -(fraction.length : Int) = -k := congrArg Decimal.exponent hvalue
    simp only [hplaces]
    exact scale?_of_short hn hpos hk
  | some power =>
    obtain ⟨minus, digits⟩ := power
    cases minus with
    | false => exact absurd rfl (hpower digits)
    | true =>
      have hplaces : -(Nat.ofDigitChars 10 digits 0 : Int) - fraction.length = -k :=
        congrArg Decimal.exponent hvalue
      have hclamp : max minPower (min maxPower (-(fraction.length : Int) - Nat.ofDigitChars 10 digits 0))
          = -k := by
        rw [minPower, maxPower]
        omega
      have hsmall : ¬ maxPower < (Nat.ofDigitChars 10 digits 0 : Int) := by
        rw [maxPower]
        omega
      simp only [hsmall, if_false, if_true, hclamp]
      exact scale?_of_short hn hpos hk

/-- The number that a text of few digits is read as. -/
theorem numberValue?_of_isMagnitude {cs : List Char} {power : Option (Bool × List Char)} {d : Decimal}
    (h : IsMagnitude cs power d) (hdigits : d.digits < 2 ^ 53) (hlow : -22 ≤ d.exponent)
    (hneg : d.exponent < 0) (hpower : ∀ digits, power ≠ some (false, digits)) :
    numberValue? cs = some d.toFloat := by
  obtain ⟨n, exponent⟩ := d
  obtain ⟨k, rfl⟩ : ∃ k : Nat, exponent = -k := ⟨exponent.natAbs, by simp only at hneg; omega⟩
  simp only at hdigits hlow hneg
  obtain ⟨whole, fraction, hread, hvalue⟩ := exists_readNumber_withSign h false
  rw [Decimal.withSign, if_neg Bool.false_ne_true] at hread
  rw [numberValue?, hread]
  show (NumberParts.magnitude? _).map (signed false) = _
  rw [magnitude?_eq hvalue hdigits (by omega) (by omega) hpower]
  rfl

end Json

/-! ## Short decimals -/

namespace Decimal

/-- Whether a decimal, with a place behind its point, is written with digits and a power of ten that
doubles hold exactly. -/
def IsShort (d : Decimal) : Prop := d.digits * power 10 (d.exponent + 1) < 2 ^ 53 ∧ -22 ≤ d.exponent

instance (d : Decimal) : Decidable d.IsShort := inferInstanceAs (Decidable (_ ∧ _))

variable {d : Decimal}

/-- A short decimal has at most sixteen digits, with the zeros in front of its point. -/
theorem lt_of_isShort (h : d.IsShort) (hdigits : d.digits ≠ 0) :
    (d.exponent + 1).toNat < 16 ∧ d.digits < 10 ^ (16 - (d.exponent + 1).toNat) := by
  have hlt : d.digits * 10 ^ (d.exponent + 1).toNat < 10 ^ 16 :=
    Nat.lt_trans h.1 (by decide)
  have hexponent : (d.exponent + 1).toNat < 16 := by
    refine (Nat.pow_lt_pow_iff_right (show 1 < 10 by decide)).mp (Nat.lt_of_le_of_lt ?_ hlt)
    exact Nat.le_mul_of_pos_left _ (Nat.pos_of_ne_zero hdigits)
  refine ⟨hexponent, Nat.lt_of_mul_lt_mul_right (a := 10 ^ (d.exponent + 1).toNat) ?_⟩
  rwa [← Nat.pow_add, Nat.sub_add_cancel (Nat.le_of_lt hexponent)]

theorem toFloat_marked (h : d.IsShort) : d.marked.toFloat = d.toFloat := by
  by_cases hneg : d.exponent < 0
  · rw [marked_of_neg hneg]
  · have hpower : power 10 (d.exponent + 1) = power 10 d.exponent * 10 :=
      power_add (by omega) (by decide)
    rw [marked, Int.min_eq_right (by omega), hpower, ← Nat.mul_assoc]
    by_cases hdigits : d.digits = 0
    · rw [Decimal.toFloat, if_pos (by rw [hdigits]; simp), Decimal.toFloat, if_pos hdigits]
    · have hexponent := (lt_of_isShort h hdigits).1
      rw [toFloat_of_small hdigits (by omega) (by omega), power_of_nonpos (show -d.exponent ≤ 0 by omega)]
      refine (@toFloat_mk_neg _ 1 (by decide)).trans ?_
      exact nearest_mul _ Nat.one_pos (show 0 < 10 by decide)

theorem point_le_of_isShort (h : d.IsShort) (hzero : d.digits = 0 → d.exponent ≤ 0) :
    d.point ≤ 16 := by
  unfold point
  by_cases hdigits : d.digits = 0
  · have hlength := Nat.toDigits_length 10 d.digits 1 Nat.one_pos (by rw [hdigits]; decide)
    have := hzero hdigits
    omega
  · obtain ⟨hexponent, hlt⟩ := lt_of_isShort h hdigits
    have hlength := Nat.toDigits_length 10 d.digits _ (by omega) hlt
    omega

/-- The number that a short decimal is read as. -/
theorem numberValue?_decimal (h : d.IsShort) (hzero : d.digits = 0 → d.exponent ≤ 0) :
    Json.numberValue? (Document.numberLayout.decimal d) = some d.toFloat := by
  have hmagnitude := isMagnitude_decimal hzero
  by_cases hposition : Document.numberLayout.positional d.point = true
  · rw [if_pos hposition, if_pos hposition] at hmagnitude
    rw [← toFloat_marked h]
    refine Json.numberValue?_of_isMagnitude hmagnitude h.1 ?_ ?_ (by simp)
    · exact le_min h.2 (by decide)
    · exact Int.lt_of_le_of_lt (Int.min_le_right _ _) (by decide)
  · -- a short decimal is not so large that its power of ten is positive
    rw [if_neg hposition, if_neg hposition] at hmagnitude
    have hlow : d.point < -4 := by
      have hhigh := point_le_of_isShort h hzero
      by_contra hle
      exact hposition (decide_eq_true ⟨by omega, hhigh⟩)
    have hneg : d.exponent < 0 := by
      unfold point at hlow
      omega
    have hdigits := h.1
    rw [power_of_nonpos (by omega), Nat.mul_one] at hdigits
    refine Json.numberValue?_of_isMagnitude hmagnitude hdigits h.2 hneg ?_
    intro digits hpower
    have hsign : decide (d.point - 1 < 0) = false := congrArg Prod.fst (Option.some.inj hpower)
    exact of_decide_eq_false hsign (by omega)

end Decimal

namespace Document

/-- Whether a number is written as a short decimal without a sign. -/
def isShort (x : Float) : Bool :=
  match Binary.ofFloat x with
  | .finite false m e => decide (Decimal.shortest numberLayout.tie m e).IsShort
  | _ => false

/-! ## Top theorem -/

/-- **A number that is written with few digits reads back.** -/
theorem readsBack_of_isShort {x : Float} (h : isShort x = true) : ReadsBack x := by
  unfold isShort at h
  split at h
  · next m e hx =>
    have h := of_decide_eq_true h
    have hzero := Decimal.exponent_shortest hx numberLayout.tie
    have hvalue := Decimal.toFloat_shortest hx numberLayout.tie
    generalize hd : Decimal.shortest numberLayout.tie m e = d at h hzero hvalue
    have hchars : numberLayout.chars x = numberLayout.decimal d := by
      rw [Decimal.Layout.chars, hx, ← hd]
      rfl
    rw [ReadsBack, hchars, ← hvalue]
    exact Decimal.numberValue?_decimal h hzero
  · cases h

theorem readsBack_zero : ReadsBack 0 := readsBack_of_isShort (by decide +kernel)

theorem readsBack_third : ReadsBack 33.3 := readsBack_of_isShort (by decide +kernel)

end Document

end TradePlan
