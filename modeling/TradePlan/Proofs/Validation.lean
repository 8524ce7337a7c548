import TradePlan.Formula.Evaluate
import TradePlan.Proofs.Leaves

/-!
# The check of names and the stack machine

The names of a formula are checked on its tokens before anything is evaluated.  The check changes no
value: what the stack machine makes of the unchecked formula is its value, and there is no other.

    Formula.evaluate policy bindings formula = .ok value ↔
      ∃ tokens items, … items.evaluate policy bindings = .ok value        (evaluate_eq_ok_iff_machine)

A machine that runs to its end has resolved each variable of the sequence, and the check sees these
variables alone.
-/

namespace TradePlan

variable {policy : AliasPolicy} {bindings : Bindings}

/-! ## Variables that have a value -/

/-- A variable with a value passes the check. -/
theorem nameFault?_of_resolve {name : String} {value : Float}
    (h : resolve policy bindings name = .ok value) : nameFault? policy bindings name false = none := by
  obtain ⟨hvariable, hbound, -⟩ := resolve_eq_ok_iff.mp h
  rw [nameFault?, Bindings.contains, hvariable, hbound]
  simp

/-- Names that stand alone pass the check if each of them does. -/
theorem checkNames_identifiers_iff {names : List String} :
    checkNames policy bindings (names.map .identifier) = .ok () ↔
      ∀ name ∈ names, nameFault? policy bindings name false = none := by
  induction names with
  | nil => simp [checkNames]
  | cons name names ih =>
    rw [List.map_cons, checkNames_var (head?_map_identifier_ne names), List.forall_mem_cons, ← ih]
    cases nameFault? policy bindings name false with
    | none => simp
    | some fault => simp

/-! ## Runs of the machine -/

/-- A run has found a value for each variable. -/
theorem resolve_of_foldlM {items : List Postfix} {stack after : List Float}
    (h : items.foldlM (numbers policy bindings).step stack = .ok after) :
    ∀ name ∈ Postfix.variables items, ∃ value, resolve policy bindings name = .ok value := by
  induction items generalizing stack with
  | nil => simp [Postfix.variables]
  | cons item items ih =>
    rw [List.foldlM_cons] at h
    obtain ⟨between, hstep, hrest⟩ := bind_eq_ok_iff.mp h
    intro name hname
    cases item with
    | var other =>
      rcases List.mem_cons.mp hname with rfl | hname
      · obtain ⟨value, hvalue, -⟩ := bind_eq_ok_iff.mp hstep
        exact ⟨value, hvalue⟩
      · exact ih hrest name hname
    | number value => exact ih hrest name hname
    | operator op => exact ih hrest name hname
    | call function argc => exact ih hrest name hname

/-- A sequence with a value passes the check of its variables. -/
theorem checkNames_of_machine {items : List Postfix} {value : Float}
    (h : Postfix.evaluate policy bindings items = .ok value) :
    checkNames policy bindings ((Postfix.variables items).map .identifier) = .ok () := by
  obtain ⟨stack, hrun, -⟩ := bind_eq_ok_iff.mp h
  refine checkNames_identifiers_iff.mpr fun name hname => ?_
  obtain ⟨bound, hbound⟩ := resolve_of_foldlM hrun name hname
  exact nameFault?_of_resolve hbound

/-- A sequence with a value builds a tree. -/
theorem exists_tree_of_machine {items : List Postfix} {value : Float}
    (h : Postfix.evaluate policy bindings items = .ok value) : ∃ e, Expr.ofPostfix items = .ok e := by
  cases htree : Expr.ofPostfix items with
  | ok e => exact ⟨e, rfl⟩
  | error fault =>
    rw [Postfix.evaluate, Interpretation.run] at h
    rcases numbers_of_trees_error policy bindings [] [] rfl htree with
      hfault | ⟨place, error, hstop, -, -⟩
    · rw [hfault] at h
      cases h
    · rw [Interpretation.foldlM_of_stopsAt hstop, error_bind] at h
      cases h

/-! ## Top theorem -/

/-- **The check of names changes no value.**  A formula has a value if the stack machine gives its
unchecked postfix order that value. -/
theorem evaluate_eq_ok_iff_machine (policy : AliasPolicy) (bindings : Bindings) (formula : String)
    (value : Float) :
    Formula.evaluate policy bindings formula = .ok value ↔
      ∃ tokens items, Token.readAll (Formula.normalize formula) = .ok tokens ∧
        Postfix.ofTokens tokens = .ok items ∧ Postfix.evaluate policy bindings items = .ok value := by
  constructor
  · intro h
    obtain ⟨tokens, htokens, h⟩ := bind_eq_ok_iff.mp h
    obtain ⟨_, -, h⟩ := bind_eq_ok_iff.mp h
    obtain ⟨items, horder, h⟩ := bind_eq_ok_iff.mp h
    obtain ⟨e, htree, hvalue⟩ := bind_eq_ok_iff.mp h
    obtain rfl := Expr.ofPostfix_eq_ok_iff.mp htree
    refine ⟨tokens, e.postorder, (Formula.tokens_eq_ok_iff.mp htokens).2, horder, ?_⟩
    rw [evaluate_postorder (Postfix.isKnown_ofTokens horder), hvalue]
  · rintro ⟨tokens, items, hread, horder, hmachine⟩
    have hne : Formula.normalize formula ≠ "" := by
      -- a blank formula has no tokens, and the machine has no value for them
      intro hblank
      rw [hblank] at hread
      have hnil : Token.readAll "" = .ok [] := Token.readFrom.eq_1 0
      obtain rfl := Except.ok.inj (hnil.symm.trans hread)
      obtain rfl : [] = items := Except.ok.inj horder
      cases hmachine
    have htokens : Formula.tokens formula = .ok tokens := Formula.tokens_eq_ok_iff.mpr ⟨hne, hread⟩
    obtain ⟨e, htree⟩ := exists_tree_of_machine hmachine
    obtain rfl := Expr.ofPostfix_eq_ok_iff.mp htree
    have hnames := checkNames_of_machine hmachine
    rw [evaluate_postorder (Postfix.isKnown_ofTokens horder)] at hmachine
    rw [Formula.evaluate, htokens, ok_bind, checkNames_of_ofTokens horder, hnames, ok_bind, horder,
      ok_bind, htree, ok_bind, hmachine]

end TradePlan
