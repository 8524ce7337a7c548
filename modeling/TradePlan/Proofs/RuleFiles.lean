import TradePlan.Proofs.JsonText
import TradePlan.Store.Document

/-!
# Rule files and their rules

A rule file holds the rules that it was written from, but for their percentages, which are what the
numbers of the file are read as.  So the rules are read as they were written if and only if each
percentage is read as it was written:

    read? (write rules) = rules.mapM reread?                                        (read?_write)
    read? (write rules) = some rules ↔ ∀ rule ∈ rules, ReadsBack rule.partialPct

All that is written is read: the texts of finite numbers are numbers, and a percentage is finite.
-/

namespace TradePlan

/-! ## Numbers as rule files write them -/

namespace Json

/-- The decimal that digits, a fraction and a power of ten write. -/
def decimalOf (whole fraction : List Char) : Option (Bool × List Char) → Decimal
  | none => ⟨Nat.ofDigitChars 10 (whole ++ fraction) 0, -fraction.length⟩
  | some (negative, power) =>
    ⟨Nat.ofDigitChars 10 (whole ++ fraction) 0,
      (if negative then -(Nat.ofDigitChars 10 power 0 : Int) else Nat.ofDigitChars 10 power 0)
        - fraction.length⟩

/-- The characters of a number without its sign, with the power and the decimal that they write. -/
def IsMagnitude (cs : List Char) (power : Option (Bool × List Char)) (d : Decimal) : Prop :=
  ∃ whole after fraction later, readWhole cs = some (whole, after) ∧
    readFraction after = some (fraction, later) ∧ readPower later = some (power, []) ∧
    decimalOf whole fraction power = d

theorem exists_readNumber_withSign {cs : List Char} {power : Option (Bool × List Char)} {d : Decimal}
    (h : IsMagnitude cs power d) (negative : Bool) :
    ∃ whole fraction,
      readNumber (Decimal.withSign negative cs) = some (⟨negative, whole, fraction, power⟩, []) ∧
      decimalOf whole fraction power = d := by
  obtain ⟨whole, after, fraction, later, hwhole, hfraction, hpower, hd⟩ := h
  refine ⟨whole, fraction, ?_, hd⟩
  cases negative with
  | true =>
    show (readWhole cs >>= _) = _
    simp only [hwhole, hfraction, hpower, Option.bind_eq_bind, Option.bind_some]
    rfl
  | false =>
    have hminus : ∀ rest, cs ≠ '-' :: rest := by
      rintro rest rfl
      cases hwhole
    rw [Decimal.withSign, if_neg Bool.false_ne_true, readNumber]
    · simp only [hwhole, hfraction, hpower, Option.bind_eq_bind, Option.bind_some]
      rfl
    · exact hminus

theorem readWhole_append {c : Char} {ds rest : List Char} (hds : ∀ d ∈ c :: ds, d.isDigit = true)
    (hzero : c = '0' → ds = []) (hrest : ∀ d ∈ rest.head?, d.isDigit = false) :
    readWhole (c :: ds ++ rest) = some (c :: ds, rest) := by
  rw [readWhole, Decimal.spanDigits_append hds rest hrest]
  split
  · next heq => cases heq
  · next heq =>
    obtain ⟨hc, hds⟩ := List.cons.inj (Prod.mk.inj heq).1
    rw [hzero hc] at hds
    cases hds
  · next heq =>
    obtain ⟨rfl, rfl⟩ := Prod.mk.inj heq
    rfl

theorem readFraction_append {fs rest : List Char} (hne : fs ≠ [])
    (hfs : ∀ d ∈ fs, d.isDigit = true) (hrest : ∀ d ∈ rest.head?, d.isDigit = false) :
    readFraction ('.' :: (fs ++ rest)) = some (fs, rest) := by
  rw [readFraction, Decimal.spanDigits_append hfs rest hrest]
  split
  · next heq => exact absurd (Prod.mk.inj heq).1 hne
  · next heq =>
    obtain ⟨rfl, rfl⟩ := Prod.mk.inj heq
    rfl

/-- A whole number as the power of ten of a number. -/
def powerOf (k : Int) : Bool × List Char := (decide (k < 0), Nat.toDigits 10 k.natAbs)

theorem readPower_intDigits (k : Int) :
    readPower ('e' :: Decimal.intDigits k) = some (some (powerOf k), []) := by
  have hspan := Decimal.spanDigits_append (@Decimal.isDigit_of_mem_toDigits k.natAbs) [] (by simp)
  rw [List.append_nil] at hspan
  obtain ⟨c, cs, hcons⟩ := List.exists_cons_of_ne_nil (@Nat.toDigits_ne_nil k.natAbs 10)
  have hsign : Decimal.splitSign (Decimal.intDigits k) =
      (decide (k < 0), Nat.toDigits 10 k.natAbs) := by
    rw [Decimal.intDigits]
    split
    · next hneg =>
      rw [decide_eq_true hneg]
      rfl
    · next hpos =>
      have hc : c.isDigit = true :=
        Decimal.isDigit_of_mem_toDigits c (by rw [hcons]; exact List.mem_cons_self)
      rw [hcons, decide_eq_false hpos]
      refine Decimal.splitSign_of_ne ?_ ?_ cs
      · rintro rfl
        cases hc
      · rintro rfl
        cases hc
  rw [hcons] at hspan hsign
  rw [readPower, if_pos (.inl rfl), hsign]
  simp only [hspan, powerOf, hcons]

theorem isMagnitude_point {c : Char} {ds fs : List Char} (hds : ∀ d ∈ c :: ds, d.isDigit = true)
    (hzero : c = '0' → ds = []) (hne : fs ≠ []) (hfs : ∀ d ∈ fs, d.isDigit = true) {d : Decimal}
    (hd : ⟨Nat.ofDigitChars 10 (c :: ds ++ fs) 0, -fs.length⟩ = d) :
    IsMagnitude (c :: ds ++ '.' :: fs) none d := by
  have hfraction := @readFraction_append fs [] hne hfs (by simp)
  rw [List.append_nil] at hfraction
  exact ⟨_, _, _, _, readWhole_append hds hzero (by simp), hfraction, rfl, hd⟩

theorem isMagnitude_power {c : Char} {fs : List Char} (hc : c.isDigit = true)
    (hfs : ∀ d ∈ fs, d.isDigit = true) (k : Int) {d : Decimal}
    (hd : ⟨Nat.ofDigitChars 10 (c :: fs) 0, k - fs.length⟩ = d) :
    IsMagnitude ([c] ++ (if fs = [] then [] else '.' :: fs) ++ 'e' :: Decimal.intDigits k)
      (some (powerOf k)) d := by
  have hpower := readPower_intDigits k
  have hwhole : ∀ rest : List Char, (∀ d ∈ rest.head?, d.isDigit = false) →
      readWhole ([c] ++ rest) = some ([c], rest) :=
    fun rest hrest => readWhole_append (by simpa using hc) (fun _ => rfl) hrest
  have hvalue : decimalOf [c] fs (some (powerOf k)) = d := by
    rw [← hd]
    simp only [decimalOf, powerOf, Nat.ofDigitChars_ten_toDigits, List.singleton_append, decide_eq_true_eq,
      Decimal.mk.injEq, true_and]
    omega
  rw [List.append_assoc]
  split
  · next hnil =>
    rw [hnil] at hvalue
    exact ⟨_, _, _, _, hwhole _ (by simp), rfl, hpower, hvalue⟩
  · next hne =>
    exact ⟨_, _, _, _, hwhole _ (by simp), readFraction_append hne hfs (by simp), hpower, hvalue⟩

theorem scale?_of_neg (x : Float) {k : Nat} (hpos : 0 < k) (hk : k ≤ 308) :
    scale? x (-k) = some (x / Decimal.toFloat ⟨1, k⟩) := by
  rw [scale?, if_neg (by omega), if_neg (by omega), scaleOnce, if_neg (by omega), Int.neg_neg,
    if_neg (by omega)]

/-- A number with few places behind its point is its digits as a count, divided by a power of ten. -/
theorem numberValue?_point {literal whole fraction : List Char} {count digits : Nat}
    (hread : readNumber literal = some (⟨false, whole, fraction, none⟩, []))
    (hplaces : 0 < fraction.length ∧ fraction.length ≤ 308)
    (hcount : appendDigits 0 whole = (count, []))
    (hdigits : appendDigits count fraction = (digits, [])) :
    numberValue? literal =
      some ((UInt64.ofNat digits).toFloat / Decimal.toFloat ⟨1, fraction.length⟩) := by
  have hshift : (([] : List Char).length : Int) -
      ((fraction.length - ([] : List Char).length : Nat) : Int) = -(fraction.length : Int) := by
    simp
  have hmagnitude : NumberParts.magnitude? ⟨false, whole, fraction, none⟩ =
      some ((UInt64.ofNat digits).toFloat / Decimal.toFloat ⟨1, fraction.length⟩) := by
    rw [NumberParts.magnitude?]
    simp only [hcount, hdigits, hshift]
    exact scale?_of_neg _ hplaces.1 hplaces.2
  rw [numberValue?, hread]
  show (NumberParts.magnitude? _).map (signed false) = _
  rw [hmagnitude]
  rfl

end Json

namespace Decimal

/-- The digits of a number do not begin with zero, unless it is zero. -/
theorem toDigits_eq_cons (n : Nat) :
    ∃ c cs, Nat.toDigits 10 n = c :: cs ∧ (c = '0' → n = 0 ∧ cs = []) := by
  have hdigit : ∀ n, n < 10 → Nat.digitChar n = '0' → n = 0 := by
    decide
  induction n using Nat.strongRecOn with
  | ind n ih =>
    by_cases hn : n < 10
    · exact ⟨n.digitChar, [], Nat.toDigits_of_lt_base hn, fun hc => ⟨hdigit n hn hc, rfl⟩⟩
    · obtain ⟨c, cs, hcons, hc⟩ := ih (n / 10) (by omega)
      rw [Nat.toDigits_of_base_le (by decide) (by omega), hcons]
      refine ⟨c, cs ++ [(n % 10).digitChar], rfl, fun hzero => ?_⟩
      have := (hc hzero).1
      omega

/-- A decimal with a place behind its point. -/
def marked (d : Decimal) : Decimal := ⟨d.digits * power 10 (d.exponent + 1), min d.exponent (-1)⟩

theorem marked_of_neg {d : Decimal} (h : d.exponent < 0) : d.marked = d := by
  rw [marked, power_of_nonpos (by omega), Nat.mul_one, Int.min_eq_left (by omega)]

/-- Digits around a point are the magnitude of a number; zero must not have further zeros in front of
its point. -/
theorem isMagnitude_placed {d : Decimal} (hzero : d.digits = 0 → d.exponent ≤ 0) :
    Json.IsMagnitude (Document.numberLayout.placed (Nat.toDigits 10 d.digits)
      ((Nat.toDigits 10 d.digits).length + d.exponent)) none d.marked := by
  obtain ⟨c, cs, hcons, hc⟩ := toDigits_eq_cons d.digits
  have hdigits : ∀ other ∈ c :: cs, other.isDigit = true := by
    rw [← hcons]
    exact isDigit_of_mem_toDigits
  have hvalue : Nat.ofDigitChars 10 (c :: cs) 0 = d.digits := by
    rw [← hcons]
    exact Nat.ofDigitChars_ten_toDigits
  have hlength : (c :: cs).length = cs.length + 1 := List.length_cons
  rw [hcons, Layout.placed]
  split
  · -- the point stands in front of the digits
    next hpoint =>
    refine Json.isMagnitude_point (by simp) (fun _ => rfl) (by simp) (fun other hother => ?_) ?_
    · rcases List.mem_append.mp hother with hother | hother
      · exact isDigit_of_mem_zeros other hother
      · exact hdigits other hother
    · have hzeros : Nat.ofDigitChars 10 ['0'] 0 = 0 := rfl
      rw [marked_of_neg (by omega), Nat.ofDigitChars_append, Nat.ofDigitChars_append, hzeros,
        Nat.ofDigitChars_replicate_zero, Nat.mul_zero, hvalue, List.length_append,
        List.length_replicate]
      refine congrArg (Decimal.mk d.digits) ?_
      omega
  · next hpoint =>
    split
    · -- the point stands after the digits, and zero has no further zeros
      next hplace =>
      rw [if_pos (show Document.numberLayout.wholeMark = true from rfl), List.cons_append]
      refine Json.isMagnitude_point ?_ (fun hzeros => ?_) (List.cons_ne_nil '0' []) (by simp) ?_
      · intro other hother
        rw [← List.cons_append] at hother
        rcases List.mem_append.mp hother with hother | hother
        · exact hdigits other hother
        · exact isDigit_of_mem_zeros other hother
      · obtain ⟨hnil, rfl⟩ := hc hzeros
        have hexponent := hzero hnil
        rw [List.nil_append, List.replicate_eq_nil_iff]
        simp only [List.length_singleton]
        omega
      · have hmark : ∀ n, Nat.ofDigitChars 10 ['0'] n = n * 10 := by
          intro n
          rw [Nat.ofDigitChars_cons, Nat.ofDigitChars_nil, Nat.mul_comm]
          rfl
        have hzeros : ((c :: cs).length + d.exponent).toNat - (c :: cs).length = d.exponent.toNat := by
          omega
        have hpower : power 10 (d.exponent + 1) = 10 ^ d.exponent.toNat * 10 :=
          power_add (by omega) (by decide)
        rw [Nat.ofDigitChars_append, ← List.cons_append, Nat.ofDigitChars_append, hvalue,
          Nat.ofDigitChars_replicate_zero, hmark, hzeros, marked, hpower, Int.min_eq_right (by omega),
          ← Nat.mul_assoc, Nat.mul_comm d.digits]
        rfl
    · -- the point stands among the digits
      next hbetween =>
      obtain ⟨place, hplace⟩ : ∃ place, ((c :: cs).length + d.exponent).toNat = place + 1 :=
        Nat.exists_eq_add_one_of_ne_zero (by omega)
      rw [hplace] at hbetween ⊢
      rw [List.take_succ_cons, List.drop_succ_cons]
      refine Json.isMagnitude_point ?_ (fun hzeros => ?_) ?_ ?_ ?_
      · intro other hother
        rw [← List.take_succ_cons] at hother
        exact hdigits other (List.mem_of_mem_take hother)
      · rw [(hc hzeros).2, List.take_nil]
      · rw [ne_eq, List.drop_eq_nil_iff]
        omega
      · exact fun other hother =>
          hdigits other (List.mem_cons_of_mem c (List.mem_of_mem_drop hother))
      · rw [marked_of_neg (by omega), List.cons_append, List.take_append_drop, hvalue,
          List.length_drop]
        refine congrArg (Decimal.mk d.digits) ?_
        omega

/-- The place of the point after the first digit of a decimal. -/
def point (d : Decimal) : Int := (Nat.toDigits 10 d.digits).length + d.exponent

/-- The text of a decimal in a rule file is the magnitude of a number. -/
theorem isMagnitude_decimal {d : Decimal} (hzero : d.digits = 0 → d.exponent ≤ 0) :
    Json.IsMagnitude (Document.numberLayout.decimal d)
      (if Document.numberLayout.positional d.point then none else some (Json.powerOf (d.point - 1)))
      (if Document.numberLayout.positional d.point then d.marked else d) := by
  have hdecimal : Document.numberLayout.decimal d =
      if Document.numberLayout.positional d.point
        then Document.numberLayout.placed (Nat.toDigits 10 d.digits) d.point
        else scientific (Nat.toDigits 10 d.digits) d.point := rfl
  rw [hdecimal]
  by_cases hposition : Document.numberLayout.positional d.point = true
  · rw [if_pos hposition, if_pos hposition, if_pos hposition]
    exact isMagnitude_placed hzero
  · rw [if_neg hposition, if_neg hposition, if_neg hposition]
    obtain ⟨c, cs, hcons⟩ := List.exists_cons_of_ne_nil (@Nat.toDigits_ne_nil d.digits 10)
    have hvalue : Nat.ofDigitChars 10 (c :: cs) 0 = d.digits := by
      rw [← hcons]
      exact Nat.ofDigitChars_ten_toDigits
    have hdigits : ∀ other ∈ c :: cs, other.isDigit = true := by
      rw [← hcons]
      exact isDigit_of_mem_toDigits
    rw [hcons]
    refine Json.isMagnitude_power (hdigits c List.mem_cons_self)
      (fun other hother => hdigits other (List.mem_cons_of_mem c hother)) _ ?_
    rw [hvalue, point, hcons, List.length_cons]
    refine congrArg (Decimal.mk d.digits) ?_
    omega

/-- A finite number has the mantissa and the exponent of an unsigned one. -/
theorem exists_unsigned {x : Float} {negative : Bool} {m : Nat} {e : Int}
    (h : Binary.ofFloat x = .finite negative m e) : ∃ y, Binary.ofFloat y = .finite false m e := by
  refine ⟨Float.ofBits (UInt64.ofNat (x.toBits.toNat % signBit)), ?_⟩
  have hlt : x.toBits.toNat % signBit < 2 ^ 64 :=
    Nat.lt_of_lt_of_le (Nat.mod_lt _ (by decide)) (by decide)
  have hbits : (UInt64.ofNat (x.toBits.toNat % signBit)).toNat = x.toBits.toNat % signBit :=
    UInt64.toNat_ofNat_of_lt hlt
  simp only [Binary.ofFloat] at h ⊢
  split at h
  · split at h <;> cases h
  · next hexponent =>
    have hsame : x.toBits.toNat % signBit / fractionCount % 2048 =
        x.toBits.toNat / fractionCount % 2048 := by
      simp only [signBit, fractionCount]
      omega
    have hfraction : x.toBits.toNat % signBit % fractionCount = x.toBits.toNat % fractionCount := by
      simp only [signBit, fractionCount]
      omega
    have hsign : ¬ signBit ≤ x.toBits.toNat % signBit := Nat.not_le.mpr (Nat.mod_lt _ (by decide))
    rw [toBits_ofBits (by rw [hbits]; simp only [signBit, fractionCount] at hexponent ⊢; omega), hbits,
      hsame, hfraction, decide_eq_false hsign, if_neg hexponent]
    split at h
    · next hsmall =>
      obtain ⟨-, rfl, rfl⟩ := Binary.finite.inj h
      rw [if_pos hsmall]
    · next hlarge =>
      obtain ⟨-, rfl, rfl⟩ := Binary.finite.inj h
      rw [if_neg hlarge]

/-- Zero is written without zeros behind it. -/
theorem exponent_shortest {x : Float} {negative : Bool} {m : Nat} {e : Int}
    (h : Binary.ofFloat x = .finite negative m e) (tie : Tie)
    (hzero : (shortest tie m e).digits = 0) : (shortest tie m e).exponent ≤ 0 := by
  by_cases hm : m = 0
  · rw [shortest, if_pos hm]
  · obtain ⟨y, hy⟩ := exists_unsigned h
    have hvalue := toFloat_shortest hy tie
    rw [Decimal.toFloat, if_pos hzero] at hvalue
    have hbinary : Binary.ofFloat 0.0 = .finite false 0 (-1074) := by decide +kernel
    rw [← hvalue, hbinary] at hy
    exact absurd (Binary.finite.inj hy).2.1.symm hm

end Decimal

namespace Document

open Float.Model in
/-- A percentage is finite. -/
theorem isFinite_of_percent {x : Float} (h : 0 ≤ x ∧ x ≤ 100) : x.isFinite = true := by
  have hlow : UnpackedFloat.le (0 : Float).toModel.unpack x.toModel.unpack = true :=
    of_decide_eq_true h.1
  have hhigh : UnpackedFloat.le x.toModel.unpack (100 : Float).toModel.unpack = true :=
    of_decide_eq_true h.2
  have hzero : (0 : Float).toModel.unpack = .zero .positive := rfl
  obtain ⟨m, e, hm, hhundred⟩ : ∃ m e hm, (100 : Float).toModel.unpack = .finite .positive m e hm :=
    ⟨_, _, _, rfl⟩
  rw [hzero] at hlow
  rw [hhundred] at hhigh
  show x.toModel.unpack.isFinite = true
  cases hx : x.toModel.unpack with
  | infinity sign =>
    rw [hx] at hlow hhigh
    cases sign with
    | positive => cases hhigh
    | negative => cases hlow
  | notANumber =>
    rw [hx] at hlow
    cases hlow
  | zero sign => rfl
  | finite sign mantissa exponent hpos => rfl

theorem exists_finite {x : Float} (h : x.isFinite = true) :
    ∃ negative m e, Binary.ofFloat x = .finite negative m e := by
  have hexponent := (isFinite_iff x).mp h
  simp only [Binary.ofFloat]
  rw [if_neg hexponent]
  split
  · exact ⟨_, _, _, rfl⟩
  · exact ⟨_, _, _, rfl⟩

/-- What is written of a finite number is a number. -/
theorem exists_readNumber_chars {x : Float} (h : x.isFinite = true) :
    ∃ parts, Json.readNumber (numberLayout.chars x) = some (parts, []) := by
  obtain ⟨negative, m, e, hx⟩ := exists_finite h
  obtain ⟨whole, fraction, hread, -⟩ := Json.exists_readNumber_withSign
    (Decimal.isMagnitude_decimal (Decimal.exponent_shortest hx numberLayout.tie)) negative
  rw [Decimal.Layout.chars, hx]
  exact ⟨_, hread⟩

/-! ## Strategies -/

/-- A strategy that was chosen is read from its name. -/
theorem field?_key {strategy : Type} {key : strategy → String} {ofKey? : String → Option strategy}
    (h : ∀ s, ofKey? (key s) = some s) (choice : Option strategy) :
    field? none (toChoice? ofKey?) (choice.map fun s => ofText (key s)) = some choice := by
  cases choice with
  | none => rfl
  | some s =>
    show ((some (key s)).bind fun key => (ofKey? key).map some) = _
    rw [Option.bind_some, h]
    rfl

theorem fieldValues?_ofChoices (choices : FallbackChoices) :
    fieldValues? fallbackFields (ofChoices choices) =
      some [choices.stop.map fun s => ofText s.key, choices.target.map fun s => ofText s.key,
        choices.trail.map fun s => ofText s.key] := by
  obtain ⟨stop, target, trail⟩ := choices
  cases stop <;> cases target <;> cases trail <;> rfl

theorem toChoices?_ofChoices (choices : FallbackChoices) :
    toChoices? (ofChoices choices) = some choices := by
  rw [toChoices?, fieldValues?_ofChoices]
  simp only [field?_key StopFallback.ofKey?_key, field?_key TargetFallback.ofKey?_key,
    field?_key TrailFallback.ofKey?_key]
  rfl

/-! ## Rules -/

/-- A rule with the percentage that the number of a file is read as. -/
def reread? (rule : TradingRule) : Option TradingRule :=
  (Json.numberValue? (numberLayout.chars rule.partialPct)).map fun x => { rule with partialPct := x }

theorem fieldValues?_ofRule (rule : TradingRule) :
    fieldValues? ruleFields (ofRule rule) =
      some [some (ofText rule.name), some (ofText rule.stopLoss), some (ofText rule.trailingStop),
        some (ofText rule.profitTaking), some (.number (numberLayout.chars rule.partialPct)),
        some (ofText rule.exitRule), some (.bool rule.selected),
        if rule.fallback.isEmpty then none else some (ofChoices rule.fallback)] := by
  rw [ofRule]
  cases rule.fallback.isEmpty <;> rfl

/-- Strategies that do not stand in a file are read as none. -/
theorem field?_ofChoices (choices : FallbackChoices) :
    field? {} toChoices? (if choices.isEmpty then none else some (ofChoices choices)) =
      some choices := by
  split
  · next hempty =>
    obtain ⟨stop, target, trail⟩ := choices
    simp only [FallbackChoices.isEmpty, Bool.and_eq_true, Option.isNone_iff_eq_none] at hempty
    obtain ⟨⟨rfl, rfl⟩, rfl⟩ := hempty
    rfl
  · exact toChoices?_ofChoices choices

theorem toRule?_ofRule (rule : TradingRule) : toRule? (ofRule rule) = reread? rule := by
  rw [toRule?, fieldValues?_ofRule]
  simp only [field?_ofChoices, reread?]
  show ((Json.numberValue? (numberLayout.chars rule.partialPct)).bind fun x =>
    some { rule with partialPct := x }) = _
  cases Json.numberValue? (numberLayout.chars rule.partialPct) <;> rfl

/-! ## Rule files -/

/-- Whether what is written of a number is read as the number. -/
def ReadsBack (x : Float) : Prop := Json.numberValue? (numberLayout.chars x) = some x

theorem reread?_eq_some_iff {rule : TradingRule} :
    reread? rule = some rule ↔ ReadsBack rule.partialPct := by
  rw [reread?, Option.map_eq_some_iff, ReadsBack]
  constructor
  · rintro ⟨x, hx, hrule⟩
    obtain rfl : x = rule.partialPct := congrArg TradingRule.partialPct hrule
    exact hx
  · intro h
    exact ⟨_, h, rfl⟩

theorem mapM_eq_some_iff_forall₂ {α β : Type} {f : α → Option β} {as : List α} {bs : List β} :
    as.mapM f = some bs ↔ List.Forall₂ (fun a b => f a = some b) as bs := by
  induction as generalizing bs with
  | nil => simp [eq_comm]
  | cons a as ih =>
    cases bs with
    | nil => cases ha : f a <;> cases has : as.mapM f <;> simp [ha, has]
    | cons b bs =>
      rw [List.mapM_cons, List.forall₂_cons, ← ih]
      cases f a <;> cases as.mapM f <;> simp

theorem isWritable_number {x : Float} (h : x.isFinite = true) :
    Json.isWritable (.number (numberLayout.chars x)) = true := by
  obtain ⟨parts, hread⟩ := exists_readNumber_chars h
  rw [Json.isWritable, hread]
  rfl

theorem isWritable_ofChoices (choices : FallbackChoices) : (ofChoices choices).isWritable = true := by
  obtain ⟨stop, target, trail⟩ := choices
  cases stop <;> cases target <;> cases trail <;> rfl

theorem isWritable_ofRule {rule : TradingRule} (h : rule.partialPct.isFinite = true) :
    (ofRule rule).isWritable = true := by
  have hnumber := isWritable_number h
  have hchoices := isWritable_ofChoices rule.fallback
  rw [ofRule]
  cases rule.fallback.isEmpty with
  | true => simpa [member, ofText, Json.isWritable, Json.haveWritable] using hnumber
  | false =>
    simpa [member, ofText, Json.isWritable, Json.haveWritable, hchoices] using hnumber

/-- A rule file holds the rules that it was written from, with their percentages as its numbers are
read. -/
theorem read?_write {rules : List TradingRule} (h : ∀ rule ∈ rules, rule.partialPct.isFinite = true) :
    read? (write rules) = rules.mapM reread? := by
  have hwritable : (Json.array (rules.map ofRule)).isWritable = true := by
    rw [Json.isWritable, Json.areWritable_iff]
    intro item hitem
    obtain ⟨rule, hrule, rfl⟩ := List.mem_map.mp hitem
    exact isWritable_ofRule (h rule hrule)
  rw [read?, write, Json.read?_text hwritable]
  show (rules.map ofRule).mapM toRule? = _
  rw [List.mapM_map]
  exact congrArg (fun f => rules.mapM f) (funext toRule?_ofRule)

/-! ## Top theorem -/

/-- **A rule file is read as the rules that it was written from if their percentages read back.** -/
theorem read?_write_eq_some_iff {rules : List TradingRule}
    (h : ∀ rule ∈ rules, rule.partialPct.isFinite = true) :
    read? (write rules) = some rules ↔ ∀ rule ∈ rules, ReadsBack rule.partialPct := by
  rw [read?_write h, mapM_eq_some_iff_forall₂, List.forall₂_same]
  simp only [reread?_eq_some_iff]

end Document

end TradePlan
