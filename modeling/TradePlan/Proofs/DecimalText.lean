import TradePlan.Decimal.Layout
import TradePlan.Decimal.Reading
import TradePlan.Proofs.Rounding

/-!
# Reading a written number back

The shortest decimal of a double reads back as that double, whichever grid it was found on, and
its plain text is made of digits and at most one point that denote it:

    isUnsigned x = true → readChars (plainLayout.chars x) = .ok x             (readChars_plainChars)
-/

namespace TradePlan

/-- A finite number without a minus sign. -/
def isUnsigned (x : Float) : Bool := x.isFinite && decide (x.toBits.toNat < signBit)

theorem isUnsigned_iff (x : Float) :
    isUnsigned x = true ↔ ∃ m e, Binary.ofFloat x = .finite false m e := by
  rw [isUnsigned, Bool.and_eq_true, decide_eq_true_iff, isFinite_iff]
  simp only [Binary.ofFloat]
  constructor
  · rintro ⟨hexp, hsign⟩
    rw [if_neg hexp, decide_eq_false (Nat.not_le.mpr hsign)]
    split
    · exact ⟨_, _, rfl⟩
    · exact ⟨_, _, rfl⟩
  · rintro ⟨m, e, h⟩
    split at h
    · split at h <;> cases h
    · next hexp =>
      refine ⟨hexp, Nat.not_le.mp ?_⟩
      split at h
      · exact of_decide_eq_false (Binary.finite.inj h).1
      · exact of_decide_eq_false (Binary.finite.inj h).1

namespace Decimal

/-! ## The shortest decimal reads back -/

theorem toFloat_of_small {d : Decimal} (hdigits : d.digits ≠ 0) (hlow : -1080 ≤ d.digits.log2 + 1 + 3 * d.exponent)
    (hhigh : d.exponent ≤ 310) :
    d.toFloat = nearest (d.digits * power 10 d.exponent) (power 10 (-d.exponent)) := by
  rw [Decimal.toFloat, if_neg hdigits, if_neg (by omega), if_neg (by omega)]

/-- The decimal with all digits is the number itself. -/
theorem toFloat_allDigits {m : Nat} {e : Int} (hm : m ≠ 0) (he : -1074 ≤ e) :
    (allDigits m e).toFloat = nearest (m * power 2 e) (power 2 (-e)) := by
  rw [allDigits]
  split
  · next hpos =>
    have hne : m * power 2 e ≠ 0 := Nat.mul_ne_zero hm (Nat.ne_of_gt (power_pos (by decide) e))
    rw [toFloat_of_small hne (by simp only []; omega) (by simp only []; omega),
      power_of_nonpos (show -e ≤ 0 by omega)]
    simp only [Int.neg_zero, power_zero, Nat.mul_one]
  · next hneg =>
    have hne : m * power 5 (-e) ≠ 0 := Nat.mul_ne_zero hm (Nat.ne_of_gt (power_pos (by decide) _))
    have hlog := le_log2_mul_power_five hm (-e)
    rw [toFloat_of_small hne (by simp only []; omega) (by simp only []; omega)]
    simp only []
    rw [power_of_nonpos (show e ≤ 0 by omega), power_of_nonpos (show e ≤ 0 by omega), Nat.mul_one,
      Nat.mul_one, show (10 : Nat) = 2 * 5 from rfl, power_mul,
      nearest_mul _ (power_pos (by decide) _) (power_pos (by decide) _)]

/-- A neighbour that is chosen reads back. -/
theorem toFloat_of_neighbour? {tie : Tie} {x : Float} {m : Nat} {e grid : Int} {d : Decimal}
    (h : neighbour? tie x m e grid = some d) : d.toFloat = x := by
  simp only [neighbour?] at h
  split at h
  · next hbelow habove =>
    obtain rfl := Option.some.inj h
    simp only [Tie.choose]
    split
    · exact of_decide_eq_true hbelow
    · split
      · exact of_decide_eq_true hbelow
      · exact of_decide_eq_true habove
  · next hbelow habove =>
    obtain rfl := Option.some.inj h
    exact of_decide_eq_true hbelow
  · next hbelow habove =>
    obtain rfl := Option.some.inj h
    exact of_decide_eq_true habove
  · cases h

theorem toFloat_firstGrid {x : Float} {m : Nat} {e : Int} (h : (allDigits m e).toFloat = x)
    (tie : Tie) (grid : Int) (count : Nat) : (firstGrid tie x m e grid count).toFloat = x := by
  induction count generalizing grid with
  | zero => exact h
  | succ count ih =>
    rw [firstGrid]
    split
    · next hd => exact toFloat_of_neighbour? hd
    · exact ih (grid - 1)

theorem exponent_ofFloat {x : Float} {negative : Bool} {m : Nat} {e : Int}
    (h : Binary.ofFloat x = .finite negative m e) : -1074 ≤ e := by
  simp only [Binary.ofFloat] at h
  split at h
  · split at h <;> cases h
  · split at h
    · obtain ⟨-, -, rfl⟩ := Binary.finite.inj h
      omega
    · obtain ⟨-, -, rfl⟩ := Binary.finite.inj h
      omega

/-- The shortest decimal of a double reads back as that double. -/
theorem toFloat_shortest {x : Float} {m : Nat} {e : Int} (h : Binary.ofFloat x = .finite false m e)
    (tie : Tie) : (shortest tie m e).toFloat = x := by
  have hx := nearest_ofFloat h
  rw [shortest]
  split
  · next hm =>
    rw [← hx, hm, Nat.zero_mul, nearest_zero, Decimal.toFloat, if_pos rfl]
  · next hm =>
    simp only [hx]
    exact toFloat_firstGrid ((toFloat_allDigits hm (exponent_ofFloat h)).trans hx) tie _ _

end Decimal

/-! ## Characters -/

theorem isUpper_iff_toNat {c : Char} : c.isUpper = true ↔ 0x41 ≤ c.toNat ∧ c.toNat ≤ 0x5A := by
  simp only [Char.isUpper, decide_eq_true_eq, ge_iff_le, UInt32.le_iff_toNat_le]
  rfl

theorem takeWhile_append_stop {p : Char → Bool} {cs rest : List Char} (hcs : ∀ c ∈ cs, p c = true)
    (hrest : ∀ c ∈ rest.head?, p c = false) : (cs ++ rest).takeWhile p = cs := by
  rw [List.takeWhile_append_of_pos hcs]
  cases rest with
  | nil => rw [List.takeWhile_nil, List.append_nil]
  | cons c rest => rw [List.takeWhile_cons_of_neg (by simp [hrest c rfl]), List.append_nil]

theorem dropWhile_append_stop {p : Char → Bool} {cs rest : List Char} (hcs : ∀ c ∈ cs, p c = true)
    (hrest : ∀ c ∈ rest.head?, p c = false) : (cs ++ rest).dropWhile p = rest := by
  rw [List.dropWhile_append_of_pos hcs]
  cases rest with
  | nil => rfl
  | cons c rest => rw [List.dropWhile_cons_of_neg (by simp [hrest c rfl])]

namespace Decimal

/-! ## Digits around a point -/

theorem spanDigits_append {ds : List Char} (hds : ∀ c ∈ ds, c.isDigit = true) (rest : List Char)
    (hrest : ∀ c ∈ rest.head?, c.isDigit = false) : spanDigits (ds ++ rest) = (ds, rest) := by
  rw [spanDigits, takeWhile_append_stop hds hrest, dropWhile_append_stop hds hrest]

theorem readUnsigned_digits {ds : List Char} (hne : ds ≠ []) (hds : ∀ c ∈ ds, c.isDigit = true) :
    readUnsigned ds = some ⟨Nat.ofDigitChars 10 ds 0, 0⟩ := by
  have hspan := spanDigits_append hds [] (by simp)
  rw [List.append_nil] at hspan
  simp [readUnsigned, hspan, splitFraction, hne, readPower]

theorem readUnsigned_point {ds fs : List Char} (hne : ds ≠ []) (hds : ∀ c ∈ ds, c.isDigit = true)
    (hfs : ∀ c ∈ fs, c.isDigit = true) :
    readUnsigned (ds ++ '.' :: fs) = some ⟨Nat.ofDigitChars 10 (ds ++ fs) 0, -fs.length⟩ := by
  have hwhole := spanDigits_append hds ('.' :: fs) (by simp)
  have hfraction := spanDigits_append hfs [] (by simp)
  rw [List.append_nil] at hfraction
  simp [readUnsigned, hwhole, splitFraction, hfraction, hne, readPower]

/-- Zeros after the digits stand for the exponent. -/
theorem toFloat_zeros {d : Decimal} (hexponent : 0 ≤ d.exponent) (hfinite : d.toFloat.isFinite = true) :
    (⟨d.digits * power 10 d.exponent, 0⟩ : Decimal).toFloat = d.toFloat := by
  by_cases hdigits : d.digits = 0
  · rw [Decimal.toFloat, Decimal.toFloat, hdigits, if_pos rfl, if_pos (Nat.zero_mul _)]
  · have hne : d.digits * power 10 d.exponent ≠ 0 :=
      Nat.mul_ne_zero hdigits (Nat.ne_of_gt (power_pos (by decide) _))
    by_cases hhigh : d.exponent ≤ 310
    · rw [toFloat_of_small hne (by simp only []; omega) (by simp only []; omega),
        toFloat_of_small hdigits (by omega) hhigh, power_of_nonpos (show -d.exponent ≤ 0 by omega)]
      simp only [Int.neg_zero, power_zero, Nat.mul_one]
    · have hinfinite : d.toFloat = 1.0 / 0.0 := by
        rw [Decimal.toFloat, if_neg hdigits, if_pos (by omega)]
      have hnot : (1.0 / 0.0 : Float).isFinite = false := by decide +kernel
      rw [hinfinite, hnot] at hfinite
      cases hfinite

theorem isDigit_of_mem_toDigits {n : Nat} : ∀ c ∈ Nat.toDigits 10 n, c.isDigit = true := fun _ hc =>
  Nat.isDigit_of_mem_toDigits (by decide) (by decide) hc

theorem isDigit_of_mem_zeros {count : Nat} :
    ∀ c ∈ List.replicate count '0', c.isDigit = true := by
  intro c hc
  rw [List.eq_of_mem_replicate hc]
  rfl

theorem plainLayout_decimal (d : Decimal) :
    plainLayout.decimal d = plainLayout.placed (Nat.toDigits 10 d.digits)
      ((Nat.toDigits 10 d.digits).length + d.exponent) := rfl

/-- The written digits and at most one point denote the decimal. -/
theorem exists_readUnsigned_decimal (d : Decimal) (hfinite : d.toFloat.isFinite = true) :
    ∃ d', readUnsigned (plainLayout.decimal d) = some d' ∧ d'.toFloat = d.toFloat := by
  have hvalue : Nat.ofDigitChars 10 (Nat.toDigits 10 d.digits) 0 = d.digits :=
    Nat.ofDigitChars_ten_toDigits
  rw [plainLayout_decimal, Layout.placed]
  split
  · next hpoint =>
    -- the point stands in front of the digits
    refine ⟨_, readUnsigned_point (List.cons_ne_nil '0' []) (by simp) ?_, ?_⟩
    · intro c hc
      rcases List.mem_append.mp hc with hc | hc
      · exact isDigit_of_mem_zeros c hc
      · exact isDigit_of_mem_toDigits c hc
    · have hdigits : Nat.ofDigitChars 10 (['0'] ++ (List.replicate
          (-((Nat.toDigits 10 d.digits).length + d.exponent)).toNat '0'
            ++ Nat.toDigits 10 d.digits)) 0 = d.digits := by
        rw [Nat.ofDigitChars_append, Nat.ofDigitChars_append, Nat.ofDigitChars_replicate_zero]
        exact hvalue
      rw [hdigits, List.length_append, List.length_replicate]
      congr 2
      omega
  · next hpoint =>
    split
    · next hlen =>
      -- the point stands after the digits, and is not written
      have hcount : ((Nat.toDigits 10 d.digits).length + d.exponent).toNat
          - (Nat.toDigits 10 d.digits).length = d.exponent.toNat := by
        omega
      rw [hcount, show (if plainLayout.wholeMark = true then ['.', '0'] else []) = [] from rfl,
        List.append_nil]
      refine ⟨_, readUnsigned_digits ?_ ?_, ?_⟩
      · simp [Nat.toDigits_ne_nil]
      · intro c hc
        rcases List.mem_append.mp hc with hc | hc
        · exact isDigit_of_mem_toDigits c hc
        · exact isDigit_of_mem_zeros c hc
      · rw [Nat.ofDigitChars_append, hvalue, Nat.ofDigitChars_replicate_zero, Nat.mul_comm]
        exact toFloat_zeros (by omega) hfinite
    · next hlen =>
      -- the point stands among the digits
      refine ⟨_, readUnsigned_point ?_ ?_ ?_, ?_⟩
      · rw [ne_eq, List.take_eq_nil_iff]
        simp only [Nat.toDigits_ne_nil, or_false]
        omega
      · exact fun c hc => isDigit_of_mem_toDigits c (List.mem_of_mem_take hc)
      · exact fun c hc => isDigit_of_mem_toDigits c (List.mem_of_mem_drop hc)
      · rw [List.take_append_drop, hvalue, List.length_drop]
        congr 2
        omega

/-! ## The text of a number -/

/-- A plain text starts with a digit, and holds nothing but digits and points. -/
theorem decimal_eq_cons (d : Decimal) :
    ∃ c cs, plainLayout.decimal d = c :: cs ∧ c.isDigit = true ∧
      ∀ other ∈ cs, other.isDigit = true ∨ other = '.' := by
  obtain ⟨c, cs, hcons⟩ := List.exists_cons_of_ne_nil (@Nat.toDigits_ne_nil d.digits 10)
  have hmem : ∀ other ∈ c :: cs, other.isDigit = true := by
    rw [← hcons]
    exact isDigit_of_mem_toDigits
  rw [plainLayout_decimal, Layout.placed]
  split
  · refine ⟨'0', _, rfl, rfl, ?_⟩
    intro other hother
    rcases List.mem_cons.mp hother with rfl | hother
    · exact .inr rfl
    · rcases List.mem_append.mp hother with hother | hother
      · exact .inl (isDigit_of_mem_zeros other hother)
      · exact .inl (isDigit_of_mem_toDigits other hother)
  · next hpoint =>
    rw [hcons]
    split
    · refine ⟨c, _, rfl, hmem c List.mem_cons_self, ?_⟩
      intro other hother
      simp only [List.append_eq] at hother
      rcases List.mem_append.mp hother with hother | hother
      · rcases List.mem_append.mp hother with hother | hother
        · exact .inl (hmem other (List.mem_cons_of_mem c hother))
        · exact .inl (isDigit_of_mem_zeros other hother)
      · exact absurd hother (List.not_mem_nil)
    · obtain ⟨place, hplace⟩ : ∃ place : Nat, ((c :: cs).length + d.exponent).toNat = place + 1 := by
        refine Nat.exists_eq_add_one_of_ne_zero ?_
        rw [hcons] at hpoint
        omega
      rw [hplace]
      refine ⟨c, _, rfl, hmem c List.mem_cons_self, ?_⟩
      intro other hother
      simp only [List.append_eq] at hother
      rcases List.mem_append.mp hother with hother | hother
      · exact .inl (hmem other (List.mem_cons_of_mem c (List.mem_of_mem_take hother)))
      · rcases List.mem_cons.mp hother with rfl | hother
        · exact .inr rfl
        · exact .inl (hmem other (List.mem_of_mem_drop hother))

theorem readWord_of_isDigit {c : Char} (hc : c.isDigit = true) (cs : List Char) :
    readWord (c :: cs) = none := by
  have hlower : c.toLower = c := by
    apply Char.toLower_eq_of_not_isUpper
    rw [isUpper_iff_toNat]
    have hhigh : c.toNat ≤ 0x39 := (Char.isDigit_iff_toNat.mp hc).2
    omega
  rw [← hlower] at hc
  have hi : c.toLower ≠ 'i' := fun h => by
    rw [h] at hc
    cases hc
  have hn : c.toLower ≠ 'n' := fun h => by
    rw [h] at hc
    cases hc
  simp [readWord, hi, hn]

theorem splitSign_of_ne {c : Char} (hminus : c ≠ '-') (hplus : c ≠ '+') (cs : List Char) :
    splitSign (c :: cs) = (false, c :: cs) := by
  rw [splitSign]
  · rintro rest h
    exact hminus (List.cons.inj h).1
  · rintro rest h
    exact hplus (List.cons.inj h).1

/-- A number that starts with a digit is read as an unsigned decimal. -/
theorem readChars_of_isDigit {c : Char} (hc : c.isDigit = true) (cs : List Char) {d : Decimal}
    (h : readUnsigned (c :: cs) = some d) : readChars (c :: cs) = .ok d.toFloat := by
  have hminus : c ≠ '-' := by
    rintro rfl
    cases hc
  have hplus : c ≠ '+' := by
    rintro rfl
    cases hc
  rw [readChars, if_neg (List.cons_ne_nil c cs), splitSign_of_ne hminus hplus]
  simp only [readWord_of_isDigit hc, h]
  rfl

/-- The text of an unsigned number is one of digits and points. -/
theorem plainChars_eq_cons {x : Float} (h : isUnsigned x = true) :
    ∃ c cs, plainLayout.chars x = c :: cs ∧ c.isDigit = true ∧
      ∀ other ∈ cs, other.isDigit = true ∨ other = '.' := by
  obtain ⟨m, e, hx⟩ := (isUnsigned_iff x).mp h
  rw [Layout.chars, hx]
  exact decimal_eq_cons _

/-- The text of an unsigned number reads back as that number. -/
theorem readChars_plainChars {x : Float} (h : isUnsigned x = true) :
    readChars (plainLayout.chars x) = .ok x := by
  obtain ⟨c, cs, hchars, hc, -⟩ := plainChars_eq_cons h
  obtain ⟨m, e, hx⟩ := (isUnsigned_iff x).mp h
  have hshortest := toFloat_shortest hx plainLayout.tie
  have hfinite : x.isFinite = true := (Bool.and_eq_true_iff.mp h).1
  obtain ⟨d, hread, hd⟩ := exists_readUnsigned_decimal (shortest plainLayout.tie m e)
    (by rw [hshortest]; exact hfinite)
  have hdecimal : plainLayout.chars x = plainLayout.decimal (shortest plainLayout.tie m e) := by
    rw [Layout.chars, hx]
    rfl
  rw [← hdecimal, hchars] at hread
  rw [hchars, readChars_of_isDigit hc cs hread, hd, hshortest]

/-! ## What is read -/

theorem isUnsigned_nearest {num den : Nat} (hfinite : (nearest num den).isFinite = true) :
    isUnsigned (nearest num den) = true := by
  rw [isUnsigned, hfinite, toNat_toBits_nearest, Bool.true_and, decide_eq_true_iff]
  exact Nat.lt_of_le_of_lt (nearestBits_le num den) (by decide)

theorem isUnsigned_toFloat {d : Decimal} (hfinite : d.toFloat.isFinite = true) :
    isUnsigned d.toFloat = true := by
  rw [Decimal.toFloat] at hfinite ⊢
  have hzero : isUnsigned 0.0 = true := by decide +kernel
  have hinfinite : (1.0 / 0.0 : Float).isFinite = false := by decide +kernel
  split
  · exact hzero
  · next hdigits =>
    rw [if_neg hdigits] at hfinite
    split
    · next hhigh =>
      rw [if_pos hhigh, hinfinite] at hfinite
      cases hfinite
    · next hhigh =>
      rw [if_neg hhigh] at hfinite
      split
      · exact hzero
      · next hlow =>
        rw [if_neg hlow] at hfinite
        exact isUnsigned_nearest hfinite

theorem readWord_not_finite {cs : List Char} {x : Float} (h : readWord cs = some x) :
    x.isFinite = false := by
  have hinfinite : (1.0 / 0.0 : Float).isFinite = false := by decide +kernel
  have hnan : (0.0 / 0.0 : Float).isFinite = false := by decide +kernel
  simp only [readWord] at h
  split at h
  · obtain rfl := Option.some.inj h
    exact hinfinite
  · split at h
    · obtain rfl := Option.some.inj h
      exact hnan
    · cases h

/-- A finite number that is read without a sign in front of it is unsigned. -/
theorem isUnsigned_of_readChars {cs : List Char} {x : Float} (hsign : splitSign cs = (false, cs))
    (h : readChars cs = .ok x) (hfinite : x.isFinite = true) : isUnsigned x = true := by
  rw [readChars] at h
  split at h
  · cases h
  · rw [hsign] at h
    simp only at h
    split at h
    · next word hword =>
      obtain rfl : word = x := Except.ok.inj h
      rw [readWord_not_finite hword] at hfinite
      cases hfinite
    · split at h
      · next d _ =>
        obtain rfl : d.toFloat = x := Except.ok.inj h
        exact isUnsigned_toFloat hfinite
      · cases h

end Decimal

end TradePlan
