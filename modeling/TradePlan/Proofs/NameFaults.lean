import TradePlan.Proofs.Infix
import TradePlan.Proofs.Spacing
import TradePlan.Proofs.Variables

/-!
# Faults of names

The names of a formula are checked before its structure.  What the check reports is the leftmost name
that is wrong, and the formula fails with that error whatever else is wrong with it:

    checkNames policy bindings tokens = .error fault ↔ IsLeftmostFault policy bindings tokens fault
                                                                        (checkNames_eq_error_iff)

A formula that passes the check calls only functions that there are, and its variables are bound.  It
does not fail on a name later, but for one: the name of a function that is not called passes the check
and is no variable.
-/

namespace TradePlan

/-! ## The leftmost fault -/

/-- Tokens start with a name that is wrong. -/
inductive IsNameFault (policy : AliasPolicy) (bindings : Bindings) :
    List Token → FormulaError → Prop where
  | unknownFunction {name : String} {rest : List Token} : Builtin.isName name = false →
      IsNameFault policy bindings (.identifier name :: .leftParen :: rest) (.unknownFunction name)
  | unknownIdentifier {name : String} {rest : List Token} : rest.head? ≠ some .leftParen →
      Builtin.isName name = false → isVariable name = false →
      IsNameFault policy bindings (.identifier name :: rest) (.unknownIdentifier name)
  | unboundVariable {name : String} {rest : List Token} : rest.head? ≠ some .leftParen →
      isVariable name = true → bindings.get? (policy.canonical name) = none →
      IsNameFault policy bindings (.identifier name :: rest) (.unboundVariable name)

/-- The error is about a name that is wrong, and no name to the left of it is. -/
def IsLeftmostFault (policy : AliasPolicy) (bindings : Bindings) (tokens : List Token)
    (fault : FormulaError) : Prop :=
  ∃ front back, tokens = front ++ back ∧ IsNameFault policy bindings back fault ∧
    ∀ before after, front = before ++ after → after ≠ [] →
      ∀ earlier, ¬ IsNameFault policy bindings (after ++ back) earlier

/-- No function has the name of a variable. -/
theorem isName_of_isVariable {name : String} (h : isVariable name = true) :
    Builtin.isName name = false := by
  rw [← Bool.not_eq_true]
  intro hname
  have hall : ∀ f ∈ Builtin.all, isVariable f.name = false := by decide +kernel
  obtain ⟨f, hf⟩ := Option.isSome_iff_exists.mp hname
  obtain rfl : f.name = name := by simpa using List.find?_some hf
  simp [hall f (List.mem_of_find?_eq_some hf)] at h

section

variable {policy : AliasPolicy} {bindings : Bindings} {tokens rest : List Token} {token : Token}
  {name : String} {fault other : FormulaError}

theorem nameFault?_eq_some_iff :
    nameFault? policy bindings name (rest.head? == some .leftParen) = some fault ↔
      IsNameFault policy bindings (.identifier name :: rest) fault := by
  constructor
  · intro h
    rw [nameFault?] at h
    split at h
    · cases h
    next hname =>
    rw [Bool.not_eq_true] at hname
    split at h
    · next hcalled =>
      obtain rfl := Option.some.inj h
      obtain ⟨others, rfl⟩ := List.head?_eq_some_iff.mp (beq_iff_eq.mp hcalled)
      exact .unknownFunction hname
    next hcalled =>
    have hcalled : rest.head? ≠ some .leftParen := by simpa using hcalled
    split at h
    · next hvariable =>
      obtain rfl := Option.some.inj h
      exact .unknownIdentifier hcalled hname (by simpa using hvariable)
    next hvariable =>
    split at h
    · next hbound =>
      obtain rfl := Option.some.inj h
      exact .unboundVariable hcalled (by simpa using hvariable)
        (by simpa [Bindings.contains] using hbound)
    · cases h
  · intro h
    cases h with
    | unknownFunction hname => simp [nameFault?, hname]
    | unknownIdentifier hcalled hname hvariable => simp [nameFault?, hname, hcalled, hvariable]
    | unboundVariable hcalled hvariable hbound =>
      simp [nameFault?, isName_of_isVariable hvariable, hcalled, hvariable, Bindings.contains, hbound]

theorem IsNameFault.unique (h : IsNameFault policy bindings tokens fault)
    (hother : IsNameFault policy bindings tokens other) : fault = other := by
  have hsome : ∃ name rest, tokens = .identifier name :: rest := by
    cases h <;> exact ⟨_, _, rfl⟩
  obtain ⟨name, rest, rfl⟩ := hsome
  rw [← nameFault?_eq_some_iff] at h hother
  exact Option.some.inj (h.symm.trans hother)

theorem isLeftmostFault_cons_iff
    (h : ∀ earlier, ¬ IsNameFault policy bindings (token :: rest) earlier) :
    IsLeftmostFault policy bindings (token :: rest) fault ↔
      IsLeftmostFault policy bindings rest fault := by
  constructor
  · rintro ⟨front, back, hsplit, hback, hnone⟩
    cases front with
    | nil =>
      rw [List.nil_append] at hsplit
      rw [← hsplit] at hback
      exact absurd hback (h fault)
    | cons first front =>
      obtain ⟨rfl, hrest⟩ := List.cons.inj hsplit
      refine ⟨front, back, hrest, hback, fun before after hfront => ?_⟩
      exact hnone (token :: before) after (by rw [hfront]; rfl)
  · rintro ⟨front, back, rfl, hback, hnone⟩
    refine ⟨token :: front, back, rfl, hback, fun before after hfront hne => ?_⟩
    cases before with
    | nil =>
      rw [List.nil_append] at hfront
      rw [← hfront]
      exact h
    | cons first before => exact hnone before after (List.cons.inj hfront).2 hne

theorem isLeftmostFault_iff_eq (h : IsNameFault policy bindings tokens fault) :
    IsLeftmostFault policy bindings tokens other ↔ fault = other := by
  constructor
  · rintro ⟨front, back, rfl, hback, hnone⟩
    cases front with
    | nil => exact h.unique hback
    | cons first front => exact absurd h (hnone [] (first :: front) rfl (by simp) fault)
  · rintro rfl
    exact ⟨[], tokens, rfl, h, fun before after hnil hne =>
      absurd (List.append_eq_nil_iff.mp hnil.symm).2 hne⟩

/-- **The check of names reports the leftmost name that is wrong.** -/
theorem checkNames_eq_error_iff :
    checkNames policy bindings tokens = .error fault ↔
      IsLeftmostFault policy bindings tokens fault := by
  induction tokens with
  | nil =>
    rw [checkNames]
    refine ⟨fun h => (by cases h), ?_⟩
    rintro ⟨front, back, hnil, hback, -⟩
    obtain ⟨-, rfl⟩ := List.append_eq_nil_iff.mp hnil.symm
    cases hback
  | cons token rest ih =>
    cases token with
    | identifier name =>
      rw [checkNames]
      cases hfault : nameFault? policy bindings name (rest.head? == some .leftParen) with
      | none =>
        rw [isLeftmostFault_cons_iff, ← ih]
        intro earlier hearlier
        rw [← nameFault?_eq_some_iff, hfault] at hearlier
        cases hearlier
      | some first =>
        rw [isLeftmostFault_iff_eq (nameFault?_eq_some_iff.mp hfault)]
        exact ⟨Except.error.inj, congrArg Except.error⟩
    | _ =>
      rw [isLeftmostFault_cons_iff (fun earlier hearlier => by cases hearlier), ← ih]
      rfl

/-! ## Names that pass the check -/

theorem checkNames_of_append {front : List Token}
    (h : checkNames policy bindings (front ++ tokens) = .ok ()) :
    checkNames policy bindings tokens = .ok () := by
  induction front with
  | nil => exact h
  | cons token front ih =>
    refine ih ?_
    cases token with
    | identifier name =>
      rw [List.cons_append, checkNames] at h
      split at h
      · cases h
      · exact h
    | _ => exact h

theorem not_isNameFault_of_checkNames {front : List Token}
    (h : checkNames policy bindings (front ++ tokens) = .ok ()) :
    ¬ IsNameFault policy bindings tokens fault := by
  intro hfault
  have herror := checkNames_eq_error_iff.mpr ((isLeftmostFault_iff_eq hfault).mpr rfl)
  rw [checkNames_of_append h] at herror
  cases herror

/-- Tokens that pass the check have no tree only if they are malformed. -/
theorem malformed_of_checkNames (h : checkNames policy bindings tokens = .ok ())
    (htree : (Postfix.ofTokens tokens >>= Expr.ofPostfix) = .error fault) :
    ∃ shape, fault = .malformed shape := by
  rcases tree_error_cases htree with hshape | ⟨name, rest, ⟨front, rfl⟩, hname, -⟩
  · exact hshape
  · exact absurd (.unknownFunction hname) (not_isNameFault_of_checkNames h)

/-- A name that passes the check resolves to a value, unless it is not finite or the name is that of a
function. -/
theorem resolve_error_of_pass (hpass : nameFault? policy bindings name false = none)
    (h : resolve policy bindings name = .error fault) :
    fault.isOfValue = true ∨ Builtin.isName name = true ∧ fault = .unknownIdentifier name := by
  have hnone : ∀ earlier, ¬ IsNameFault policy bindings [.identifier name] earlier := by
    intro earlier hearlier
    rw [← nameFault?_eq_some_iff] at hearlier
    exact absurd (hpass.symm.trans hearlier) (by simp)
  rcases resolve_error_cases h with hvalue | ⟨hvariable, rfl⟩ | ⟨hvariable, hbound, rfl⟩
  · exact .inl hvalue
  · right
    refine ⟨?_, rfl⟩
    by_contra hname
    exact hnone _ (.unknownIdentifier (by simp) (Bool.eq_false_iff.mpr hname) hvariable)
  · exact absurd (.unboundVariable (by simp) hvariable hbound) (hnone _)

/-! ## Errors of trees -/

theorem exists_error_of_evaluateAll {args : List Expr}
    (h : Expr.evaluateAll policy bindings args = .error fault) :
    ∃ arg ∈ args, arg.evaluate policy bindings = .error fault := by
  induction args with
  | nil => cases h
  | cons arg args ih =>
    rw [Expr.evaluateAll] at h
    rcases bind_eq_error_iff.mp h with h | ⟨value, -, h⟩
    · exact ⟨arg, List.mem_cons_self, h⟩
    · rcases bind_eq_error_iff.mp h with h | ⟨values, -, h⟩
      · obtain ⟨other, hother, h⟩ := ih h
        exact ⟨other, List.mem_cons_of_mem _ hother, h⟩
      · cases h

/-- A tree of known functions fails on a value or on one of the variables that it mentions. -/
theorem evaluate_error_cases {e : Expr} (known : ∀ item ∈ e.postorder, item.isKnown = true)
    (h : e.evaluate policy bindings = .error fault) :
    fault.isOfValue = true ∨ ∃ name ∈ e.mentions, resolve policy bindings name = .error fault := by
  induction e with
  | number value => cases h
  | var name => exact .inr ⟨name, List.mem_singleton_self name, h⟩
  | call function args ih =>
    rw [Expr.postorder] at known
    obtain ⟨f, hf⟩ := Option.isSome_iff_exists.mp
      (known (.call function args.length) (by simp))
    rw [Expr.evaluate, hf] at h
    rcases bind_eq_error_iff.mp h with h | ⟨values, -, h⟩
    · obtain ⟨arg, harg, h⟩ := exists_error_of_evaluateAll h
      have hknown : ∀ item ∈ arg.postorder, item.isKnown = true := fun item hitem =>
        known item (List.mem_append_left _ (Expr.mem_postorderAll.mpr ⟨arg, harg, hitem⟩))
      refine (ih arg harg hknown h).imp_right ?_
      rintro ⟨name, hname, hresolve⟩
      exact ⟨name, Expr.mem_mentionsAll.mpr ⟨arg, harg, hname⟩, hresolve⟩
    · exact .inl (Builtin.call_error h)
  | binary op left right ihleft ihright =>
    rw [Expr.postorder] at known
    rw [Expr.evaluate] at h
    rcases bind_eq_error_iff.mp h with h | ⟨a, -, h⟩
    · refine (ihleft (fun item hitem => known item (by simp [hitem])) h).imp_right ?_
      rintro ⟨name, hname, hresolve⟩
      exact ⟨name, List.mem_append_left _ hname, hresolve⟩
    rcases bind_eq_error_iff.mp h with h | ⟨b, -, h⟩
    · refine (ihright (fun item hitem => known item (by simp [hitem])) h).imp_right ?_
      rintro ⟨name, hname, hresolve⟩
      exact ⟨name, List.mem_append_right _ hname, hresolve⟩
    · exact .inl (Operator.apply_error h)

/-! ## Errors of formulas that pass the check -/

/-- An error of a formula whose names pass the check. -/
inductive IsLateFault (formula : String) (tokens : List Token) : FormulaError → Prop where
  | empty : Text.isBlankText formula = true → IsLateFault formula tokens .empty
  | malformed (shape : ShapeFault) : IsLateFault formula tokens (.malformed shape)
  | arity (function expected : String) (found : Nat) :
      IsLateFault formula tokens (.arity function expected found)
  | domain (reason : DomainFault) : IsLateFault formula tokens (.domain reason)
  | uncalled {name : String} : Builtin.isName name = true → name ∈ Token.uncalledNames tokens →
      IsLateFault formula tokens (.unknownIdentifier name)

theorem IsLateFault.of_isOfValue {formula : String} (h : fault.isOfValue = true) :
    IsLateFault formula tokens fault := by
  cases fault with
  | arity function expected found => exact .arity function expected found
  | domain reason => exact .domain reason
  | _ => cases h

/-- The tokens of a formula are those of its text, unless it is blank. -/
theorem tokens_of_readAll {formula : String} (h : Token.readAll formula = .ok tokens) :
    Formula.tokens formula = .ok tokens ∨
      Text.isBlankText formula = true ∧ tokens = [] ∧ Formula.tokens formula = .error .empty := by
  have hread := Token.readAll_normalize.mpr h
  by_cases hempty : Formula.normalize formula = ""
  · have hnil : Token.readAll "" = .ok [] := Token.readFrom.eq_1 0
    rw [hempty] at hread
    refine .inr ⟨Formula.normalize_eq_empty_iff.mp hempty, Except.ok.inj (hread.symm.trans hnil), ?_⟩
    rw [Formula.tokens, if_pos hempty]
  · exact .inl (Formula.tokens_eq_ok_iff.mpr ⟨hempty, hread⟩)

theorem evaluate_of_tokens {formula : String} (h : Formula.tokens formula = .ok tokens) :
    Formula.evaluate policy bindings formula =
      (checkNames policy bindings tokens >>= fun _ => Postfix.ofTokens tokens >>= Expr.ofPostfix >>=
        fun e => e.evaluate policy bindings) := by
  rw [Formula.evaluate, h, ok_bind]
  simp only [bind_assoc]

theorem isLateFault_of_evaluate {formula : String} (hread : Token.readAll formula = .ok tokens)
    (hnames : checkNames policy bindings tokens = .ok ())
    (h : Formula.evaluate policy bindings formula = .error fault) :
    IsLateFault formula tokens fault := by
  rcases tokens_of_readAll hread with htokens | ⟨hblank, -, htokens⟩
  · rw [evaluate_of_tokens htokens, hnames, ok_bind] at h
    rcases bind_eq_error_iff.mp h with htree | ⟨e, htree, hvalue⟩
    · obtain ⟨shape, rfl⟩ := malformed_of_checkNames hnames htree
      exact .malformed shape
    obtain ⟨items, horder, hpost⟩ := bind_eq_ok_iff.mp htree
    obtain rfl := Expr.ofPostfix_eq_ok_iff.mp hpost
    rcases evaluate_error_cases (Postfix.isKnown_ofTokens horder) hvalue with
      hofValue | ⟨name, hname, hresolve⟩
    · exact .of_isOfValue hofValue
    -- the tree mentions a name that has passed the check
    have hpass := hnames
    rw [checkNames_of_ofTokens horder, checkNames_identifiers_iff] at hpass
    rw [← Expr.variables_postorder] at hname
    rcases resolve_error_of_pass (hpass name hname) hresolve with hofValue | ⟨hfunction, rfl⟩
    · exact .of_isOfValue hofValue
    · rw [variables_of_ofTokens horder] at hname
      exact .uncalled hfunction hname
  · rw [Formula.evaluate, htokens, error_bind] at h
    obtain rfl := Except.error.inj h
    exact .empty hblank

theorem evaluate_of_checkNames_error {formula : String} (hread : Token.readAll formula = .ok tokens)
    (h : checkNames policy bindings tokens = .error fault) :
    Formula.evaluate policy bindings formula = .error fault := by
  rcases tokens_of_readAll hread with htokens | ⟨-, rfl, -⟩
  · rw [evaluate_of_tokens htokens, h, error_bind]
  · cases h

end

/-! ## Top theorem -/

/-- **What passes the check of names does not fail on a name later.**  The blanks of a text do not
count for its tokens.  If their names pass the check, the formula fails only where it is blank or
malformed, on a count of arguments or a value, or on the name of a function that is not called.  If they
do not, it fails with the error of the check, which is about the leftmost name that is wrong. -/
theorem evaluate_after_checkNames (policy : AliasPolicy) (bindings : Bindings) (formula : String)
    (tokens : List Token) :
    (Token.readAll (Formula.normalize formula) = .ok tokens ↔ Token.readAll formula = .ok tokens) ∧
    (Token.readAll formula = .ok tokens →
      (checkNames policy bindings tokens = .ok () →
        ∀ fault, Formula.evaluate policy bindings formula = .error fault →
          IsLateFault formula tokens fault) ∧
      ∀ fault, checkNames policy bindings tokens = .error fault →
        Formula.evaluate policy bindings formula = .error fault ∧
          IsLeftmostFault policy bindings tokens fault) := by
  refine ⟨Token.readAll_normalize, fun hread => ⟨fun hnames fault => ?_, fun fault hfault => ?_⟩⟩
  · exact isLateFault_of_evaluate hread hnames
  · exact ⟨evaluate_of_checkNames_error hread hfault, checkNames_eq_error_iff.mp hfault⟩

open Token in
/-- The names of `max  - low` pass the check, and the formula fails on a function that is not called.
In `low  / bid) + sin(, vwap` the price that is not bound is reported, not the parenthesis after it,
the comma or the names to its right. -/
theorem evaluate_after_checkNames_bid :
    let uncalled := "max  - low"
    let tangled := "low  / bid) + sin(, vwap"
    let tokens := [identifier "low", operator .div, identifier "bid", rightParen, operator .add,
      identifier "sin", leftParen, comma, identifier "vwap"]
    (checkNames .collapse Formula.sampleBindings
        [identifier "max", operator .sub, identifier "low"] = .ok () ∧
      Formula.evaluate .collapse Formula.sampleBindings uncalled =
        .error (.unknownIdentifier "max") ∧
      IsLateFault uncalled [identifier "max", operator .sub, identifier "low"]
        (.unknownIdentifier "max")) ∧
    checkNames .collapse Formula.sampleBindings tokens = .error (.unboundVariable "bid") ∧
    Formula.evaluate .collapse Formula.sampleBindings tangled = .error (.unboundVariable "bid") ∧
    IsLeftmostFault .collapse Formula.sampleBindings tokens (.unboundVariable "bid") := by
  intro uncalled tangled tokens
  have huncalled : readAll uncalled = .ok [identifier "max", operator .sub, identifier "low"] := by
    have hlow := @reads_name "low" (by decide) [] ends_nil [] reads_nil
    have hminus := reads_sign (c := '-') (by decide) rfl (reads_space hlow)
    have hmax := @reads_name "max" (by decide) _ (ends_cons (by decide) (by decide)) _
      (reads_space (reads_space hminus))
    exact readAll_of_reads hmax (by decide)
  have htangled : readAll tangled = .ok tokens := by
    have hvwap := @reads_name "vwap" (by decide) [] ends_nil [] reads_nil
    have hcomma := reads_sign (c := ',') (by decide) rfl (reads_space hvwap)
    have hsin := @reads_name "sin" (by decide) _ (ends_cons (by decide) (by decide)) _
      (reads_sign (c := '(') (by decide) rfl hcomma)
    have hplus := reads_sign (c := '+') (by decide) rfl (reads_space hsin)
    have hbid := @reads_name "bid" (by decide) _ (ends_cons (by decide) (by decide)) _
      (reads_sign (c := ')') (by decide) rfl (reads_space hplus))
    have hslash := reads_sign (c := '/') (by decide) rfl (reads_space hbid)
    have hlow := @reads_name "low" (by decide) _ (ends_cons (by decide) (by decide)) _
      (reads_space (reads_space hslash))
    exact readAll_of_reads hlow (by decide)
  have hnames : checkNames .collapse Formula.sampleBindings
      [identifier "max", operator .sub, identifier "low"] = .ok () := by
    decide +kernel
  have hbid : checkNames .collapse Formula.sampleBindings tokens =
      .error (.unboundVariable "bid") := by
    decide +kernel
  have hmax : Formula.evaluate .collapse Formula.sampleBindings uncalled =
      .error (.unknownIdentifier "max") := by
    rcases tokens_of_readAll huncalled with htokens | ⟨-, hnil, -⟩
    · rw [evaluate_of_tokens htokens, hnames]
      rfl
    · cases hnil
  obtain ⟨hlate, -⟩ :=
    (evaluate_after_checkNames .collapse Formula.sampleBindings uncalled _).2 huncalled
  obtain ⟨-, hfirst⟩ :=
    (evaluate_after_checkNames .collapse Formula.sampleBindings tangled _).2 htangled
  exact ⟨⟨hnames, hmax, hlate hnames _ hmax⟩, hbid, hfirst _ hbid⟩

end TradePlan
