import TradePlan.Proofs.Rendering
import TradePlan.Rule.Levels

/-!
# Finite values

Operations, calls and variables have finite values only, but a number has the value that is written.
So the value of a formula is finite, unless the formula is nothing but a number beyond all doubles:

    Formula.evaluate policy bindings formula = .ok value →
      (value.isFinite = true ↔ ¬ IsHuge formula) ∧ (IsHuge formula → value = 1.0 / 0.0)

The same holds of each level of a rule that comes from its formula.
-/

namespace TradePlan

/-! ## Values of expressions -/

theorem isFinite_of_requireFinite {value result : Float} {fault : DomainFault}
    (h : requireFinite value fault = .ok result) : result.isFinite = true := by
  obtain ⟨hfinite, rfl⟩ := requireFinite_eq_ok_iff.mp h
  exact hfinite

theorem Operator.isFinite_of_apply {op : Operator} {a b value : Float}
    (h : op.apply a b = .ok value) : value.isFinite = true := by
  rw [Operator.apply] at h
  split at h
  · cases h
  · exact isFinite_of_requireFinite h

theorem Builtin.isFinite_of_call {f : Builtin} {args : List Float} {value : Float}
    (h : f.call args = .ok value) : value.isFinite = true := by
  rw [Builtin.call] at h
  split at h
  · exact isFinite_of_requireFinite h
  · cases h

/-- Every expression but a number has a finite value. -/
theorem Expr.isFinite_or_eq_number {policy : AliasPolicy} {bindings : Bindings} {e : Expr}
    {value : Float} (h : e.evaluate policy bindings = .ok value) :
    value.isFinite = true ∨ e = .number value := by
  cases e with
  | number x =>
    obtain rfl : x = value := Except.ok.inj h
    exact .inr rfl
  | var name => exact .inl (resolve_eq_ok_iff.mp h).2.2
  | call function args =>
    rw [Expr.evaluate] at h
    split at h
    · cases h
    · obtain ⟨values, -, h⟩ := bind_eq_ok_iff.mp h
      exact .inl (Builtin.isFinite_of_call h)
  | binary op left right =>
    rw [Expr.evaluate] at h
    obtain ⟨a, -, h⟩ := bind_eq_ok_iff.mp h
    obtain ⟨b, -, h⟩ := bind_eq_ok_iff.mp h
    exact .inl (Operator.isFinite_of_apply h)

/-! ## Numbers that are read -/

/-- What is nearest to a quotient is finite or positive infinity. -/
theorem isFinite_nearest_or (num den : Nat) :
    (nearest num den).isFinite = true ∨ nearest num den = 1.0 / 0.0 := by
  have hle := nearestBits_le num den
  rw [isFinite_iff, toNat_toBits_nearest]
  by_cases hexp : nearestBits num den / fractionCount % 2048 = 2047
  · -- of the patterns with the largest exponent, only infinity has no fraction
    have htop : nearestBits num den = 2047 * fractionCount := by
      simp only [fractionCount] at hle hexp ⊢
      omega
    right
    rw [nearest, htop]
    decide +kernel
  · exact .inl hexp

theorem Decimal.isFinite_toFloat_or (d : Decimal) :
    d.toFloat.isFinite = true ∨ d.toFloat = 1.0 / 0.0 := by
  have hzero : (0.0 : Float).isFinite = true := by decide +kernel
  rw [Decimal.toFloat]
  split
  · exact .inl hzero
  · split
    · exact .inr rfl
    · split
      · exact .inl hzero
      · exact isFinite_nearest_or _ _

/-- A number of a formula is finite or positive infinity. -/
theorem Token.isFinite_or_of_readChars {c : Char} {cs : List Char} {value : Float}
    (hc : isNumberChar c = true) (h : Decimal.readChars (c :: cs) = .ok value) :
    value.isFinite = true ∨ value = 1.0 / 0.0 := by
  rw [readChars_of_isNumberChar hc] at h
  split at h
  · next d _ =>
    obtain rfl : d.toFloat = value := Except.ok.inj h
    exact d.isFinite_toFloat_or
  · cases h

theorem Token.ofSymbol?_ne_number (c : Char) (x : Float) : ofSymbol? c ≠ some (.number x) := by
  intro h
  unfold ofSymbol? at h
  split at h
  · cases h
  · cases h
  · cases h
  · obtain ⟨op, -, h⟩ := Option.map_eq_some_iff.mp h
    cases h

/-- A number that a formula writes is finite or positive infinity. -/
theorem Formula.isFinite_or_of_mem_tokens {formula : String} {tokens : List Token}
    (h : Formula.tokens formula = .ok tokens) {value : Float} (hvalue : .number value ∈ tokens) :
    value.isFinite = true ∨ value = 1.0 / 0.0 := by
  have hread : Token.readFrom 0 (Formula.normalize formula).toList = .ok tokens :=
    (Formula.tokens_eq_ok_iff.mp h).2
  have hnumbers : ∀ token ∈ tokens, ∀ x, token = .number x → x.isFinite = true ∨ x = 1.0 / 0.0 := by
    refine Token.forall_of_readFrom ?_ ?_ ?_ 0 _ hread
    · rintro c cs x hc hchars y ⟨⟩
      exact Token.isFinite_or_of_readChars hc hchars
    · rintro c cs - - x ⟨⟩
    · rintro c token htoken x rfl
      exact absurd htoken (Token.ofSymbol?_ne_number c x)
  exact hnumbers _ hvalue value rfl

/-! ## Values of formulas -/

/-- Whether a formula is nothing but a number beyond all doubles, up to parentheses. -/
def IsHuge (formula : String) : Prop := Formula.parse formula = .ok (.number (1.0 / 0.0))

theorem not_isFinite_infinity : (1.0 / 0.0 : Float).isFinite = false := by decide +kernel

theorem isFinite_evaluate {policy : AliasPolicy} {bindings : Bindings} {formula : String}
    {value : Float} (h : Formula.evaluate policy bindings formula = .ok value) :
    (value.isFinite = true ↔ ¬ IsHuge formula) ∧ (IsHuge formula → value = 1.0 / 0.0) := by
  obtain ⟨tokens, htokens, h⟩ := bind_eq_ok_iff.mp h
  obtain ⟨_, -, h⟩ := bind_eq_ok_iff.mp h
  obtain ⟨items, horder, h⟩ := bind_eq_ok_iff.mp h
  obtain ⟨e, htree, hvalue⟩ := bind_eq_ok_iff.mp h
  obtain rfl := Expr.ofPostfix_eq_ok_iff.mp htree
  have hparse : Formula.parse formula = .ok e := Expr.parse_eq_ok_iff.mpr ⟨tokens, htokens, horder⟩
  have hhuge : IsHuge formula → value = 1.0 / 0.0 := fun hhuge => by
    obtain rfl := Except.ok.inj (hparse.symm.trans hhuge)
    exact (Except.ok.inj hvalue).symm
  refine ⟨⟨fun hfinite hh => ?_, fun hh => ?_⟩, hhuge⟩
  · rw [hhuge hh, not_isFinite_infinity] at hfinite
    cases hfinite
  · rcases Expr.isFinite_or_eq_number hvalue with hfinite | rfl
    · exact hfinite
    · have hleaf : Postfix.number value ∈ Token.leaves tokens := by
        rw [← Postfix.leaves_ofTokens horder]
        exact List.mem_singleton.mpr rfl
      have hmem := Token.mem_of_mem_leavesFrom hleaf rfl
      rcases Formula.isFinite_or_of_mem_tokens htokens hmem with hfinite | rfl
      · exact hfinite
      · exact absurd hparse hh

/-- A level that comes from its formula has the value of the formula. -/
theorem Level.evaluate_of_source {strategy : Type} {policy : AliasPolicy} {bindings : Bindings}
    {formula : String} {value : Float} {choice : strategy} {fallback : Float}
    (h : (Level.ofFormula policy bindings formula value choice fallback).source = .formula) :
    Formula.evaluate policy bindings formula =
      .ok (Level.ofFormula policy bindings formula value choice fallback).value := by
  rw [Level.ofFormula] at h ⊢
  split at h
  · cases h
  · next hblank =>
    rw [if_neg hblank]
    cases hvalue : Formula.evaluate policy bindings formula with
    | ok result => rfl
    | error fault =>
      rw [hvalue] at h
      cases h

/-! ## Top theorem -/

/-- **A formula has a finite value, unless it is nothing but a number beyond all doubles.**  The value
of such a number is infinity.  The same holds of the levels that come from their formulas. -/
theorem isFinite_evaluate_iff_not_isHuge (policy : AliasPolicy) :
    (∀ bindings formula value, Formula.evaluate policy bindings formula = .ok value →
      (value.isFinite = true ↔ ¬ IsHuge formula) ∧ (IsHuge formula → value = 1.0 / 0.0)) ∧
    ∀ (rule : TradingRule) (market : Market),
      ((rule.levels policy market).stopLoss.source = .formula →
        ((rule.levels policy market).stopLoss.value.isFinite = true ↔ ¬ IsHuge rule.stopLoss)) ∧
      ((rule.levels policy market).profitTarget.source = .formula →
        ((rule.levels policy market).profitTarget.value.isFinite = true ↔
          ¬ IsHuge rule.profitTaking)) ∧
      ((rule.levels policy market).trailingStop.source = .formula →
        ((rule.levels policy market).trailingStop.value.isFinite = true ↔
          ¬ IsHuge rule.trailingStop)) := by
  refine ⟨fun bindings formula value h => isFinite_evaluate h, fun rule market => ⟨?_, ?_, ?_⟩⟩
  · exact fun h => (isFinite_evaluate (Level.evaluate_of_source h)).1
  · exact fun h => (isFinite_evaluate (Level.evaluate_of_source h)).1
  · exact fun h => (isFinite_evaluate (Level.evaluate_of_source h)).1

/-- With an entry price of 100 the formula `entry` is 100, and a stop that is written so is finite. -/
theorem isFinite_evaluate_iff_not_isHuge_entry :
    Formula.evaluate .collapse Formula.sampleBindings "entry" = .ok 100 ∧ ¬ IsHuge "entry" ∧
    (100 : Float).isFinite = true ∧
    (TradingRule.levels .collapse { name := "A", stopLoss := "entry" }
      ⟨100, .long, 95, 105, 2⟩).stopLoss.source = .formula ∧
    (TradingRule.levels .collapse { name := "A", stopLoss := "entry" }
      ⟨100, .long, 95, 105, 2⟩).stopLoss.value.isFinite = true := by
  have htokens : Formula.tokens "entry" = .ok [.identifier "entry"] :=
    Token.tokens_of_reads (@Token.reads_name "entry" (by decide) [] Token.ends_nil [] Token.reads_nil)
      (by decide) (by decide) (by decide)
  have hhuge : ¬ IsHuge "entry" := by
    rw [IsHuge, Formula.parse, htokens]
    intro h
    cases h
  have hvalue : Formula.evaluate .collapse Formula.sampleBindings "entry" = .ok 100 := by
    rw [Formula.evaluate, htokens]
    rfl
  have hsource : (TradingRule.levels .collapse { name := "A", stopLoss := "entry" }
      ⟨100, .long, 95, 105, 2⟩).stopLoss.source = .formula := by
    simp only [TradingRule.levels, TradingRule.stopLevel, Level.ofFormula, Formula.evaluate, htokens]
    rfl
  have hall := isFinite_evaluate_iff_not_isHuge .collapse
  exact ⟨hvalue, hhuge, (hall.1 _ _ _ hvalue).1.mpr hhuge, hsource,
    (hall.2 _ _).1 hsource |>.mpr hhuge⟩

/-! ## A number beyond all doubles -/

/-- A formula of digits and points alone that are a number has this number as its value. -/
theorem evaluate_ofList_of_readChars (policy : AliasPolicy) (bindings : Bindings) {lexeme : List Char}
    {value : Float} (hne : lexeme ≠ []) (hlexeme : ∀ c ∈ lexeme, Token.isNumberChar c = true)
    (hread : Decimal.readChars lexeme = .ok value) :
    Formula.evaluate policy bindings (String.ofList lexeme) = .ok value := by
  have hreads := Token.reads_digits hne hlexeme hread Token.ends_nil Token.reads_nil
  have htidy := Text.isTidy_word hne
    (fun c hc => Token.isBlank_of_isNumberChar (hlexeme c hc)) true []
  rw [List.append_nil] at hreads htidy
  have hnormal : Formula.normalize (String.ofList lexeme) = String.ofList lexeme := by
    rw [Formula.normalize, String.toList_ofList, Text.normalizeChars_of_isTidy htidy]
  have hblank : String.ofList lexeme ≠ "" := by
    intro hempty
    rw [← String.toList_ofList (l := lexeme), hempty] at hne
    exact hne rfl
  rw [Formula.evaluate, Token.tokens_of_reads hreads String.toList_ofList hnormal hblank]
  rfl

/-- A formula of a one and 309 zeros. -/
def hugeFormula : String := String.ofList ('1' :: List.replicate 309 '0')

/-- A one with 309 zeros is beyond all doubles, and its value is infinity. -/
theorem isFinite_evaluate_fails_huge :
    Formula.evaluate .collapse .empty hugeFormula = .ok (1.0 / 0.0) ∧
    (1.0 / 0.0 : Float).isFinite = false := by
  refine ⟨evaluate_ofList_of_readChars .collapse .empty (List.cons_ne_nil _ _) ?_ ?_,
    not_isFinite_infinity⟩
  · intro c hc
    rcases List.mem_cons.mp hc with rfl | hc
    · rfl
    · exact (Token.class_of_isDigit (Decimal.isDigit_of_mem_zeros c hc)).2
  · decide +kernel

end TradePlan
