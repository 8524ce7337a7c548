import TradePlan.Proofs.Postorder

/-!
# The stack machine and the tree

The value of a postfix sequence is the value of its tree.  A call is looked up when the machine
comes to it and when the evaluation of the tree enters it, so a sequence with an unknown function
may report different errors on the two ways; otherwise the errors agree too.

    items.evaluate … = .ok value ↔ ∃ e, Expr.ofPostfix items = .ok e ∧ e.evaluate … = .ok value
                                                                        (evaluate_postfix_eq_tree)
-/

namespace TradePlan

/-! ## Places of failure -/

namespace Interpretation

variable {α : Type} {meaning : Interpretation α}

/-- Started on a stack, the items before number `place` run, and that item fails. -/
def StopsAt (meaning : Interpretation α) (stack : List α) (items : List Postfix) (place : Nat)
    (fault : FormulaError) : Prop :=
  ∃ reached item, (items.take place).foldlM meaning.step stack = .ok reached ∧
    items[place]? = some item ∧ meaning.step reached item = .error fault

theorem stopsAt_zero_iff {stack : List α} {item : Postfix} {items : List Postfix}
    {fault : FormulaError} :
    meaning.StopsAt stack (item :: items) 0 fault ↔ meaning.step stack item = .error fault := by
  constructor
  · rintro ⟨reached, other, hrun, hitem, hstep⟩
    obtain rfl : stack = reached := Except.ok.inj hrun
    obtain rfl : item = other := Option.some.inj hitem
    exact hstep
  · intro h
    exact ⟨stack, item, rfl, rfl, h⟩

theorem stopsAt_succ_iff {stack next : List α} {item : Postfix} {items : List Postfix} {place : Nat}
    {fault : FormulaError} (h : meaning.step stack item = .ok next) :
    meaning.StopsAt stack (item :: items) (place + 1) fault ↔
      meaning.StopsAt next items place fault := by
  simp only [StopsAt, List.take_succ_cons, List.foldlM_cons, h, ok_bind, List.getElem?_cons_succ]

theorem foldlM_of_stopsAt {stack : List α} {items : List Postfix} {place : Nat}
    {fault : FormulaError} (h : meaning.StopsAt stack items place fault) :
    items.foldlM meaning.step stack = .error fault := by
  obtain ⟨reached, item, hrun, hitem, hstep⟩ := h
  obtain ⟨hlt, rfl⟩ := List.getElem?_eq_some_iff.mp hitem
  rw [← List.take_append_drop place items, List.foldlM_append, hrun, ok_bind,
    List.drop_eq_getElem_cons hlt, List.foldlM_cons, hstep, error_bind]

end Interpretation

/-- Whether an error is about a name, a count of arguments or a value, not about the shape of a
sequence or its text. -/
def FormulaError.isOfEvaluation : FormulaError → Bool
  | .unknownIdentifier _ | .unboundVariable _ | .unknownFunction _ | .arity .. | .domain _ => true
  | .empty | .illegalCharacter .. | .badNumber .. | .malformed _ => false

/-- Whether an error is about a count of arguments or a value. -/
def FormulaError.isOfValue : FormulaError → Bool
  | .arity .. | .domain _ => true
  | _ => false

theorem FormulaError.isOfEvaluation_of_isOfValue {error : FormulaError}
    (h : error.isOfValue = true) : error.isOfEvaluation = true := by
  cases error with
  | arity function expected found => rfl
  | domain fault => rfl
  | _ => cases h

/-- Whether an item is no call, or the call of a function that there is. -/
def Postfix.isKnown : Postfix → Bool
  | .call function _ => Builtin.isName function
  | _ => true

/-! ## Values and errors of evaluation -/

theorem requireFinite_eq_ok_iff {value result : Float} {fault : DomainFault} :
    requireFinite value fault = .ok result ↔ value.isFinite = true ∧ value = result := by
  rw [requireFinite]
  split
  · next h => simp [h]
  · next h => simp [h]

/-- The value of a variable is the finite value that its canonical name is bound to. -/
theorem resolve_eq_ok_iff {policy : AliasPolicy} {bindings : Bindings} {name : String}
    {value : Float} :
    resolve policy bindings name = .ok value ↔ isVariable name = true ∧
      bindings.get? (policy.canonical name) = some value ∧ value.isFinite = true := by
  rw [resolve]
  by_cases hvariable : isVariable name = true
  · rw [if_neg (by simp [hvariable])]
    cases hbound : bindings.get? (policy.canonical name) with
    | none => simp
    | some bound =>
      rw [requireFinite_eq_ok_iff]
      grind
  · rw [if_pos (by simp [hvariable])]
    simp [hvariable]

theorem requireFinite_error {value : Float} {fault : DomainFault} {error : FormulaError}
    (h : requireFinite value fault = .error error) : error.isOfValue = true := by
  rw [requireFinite] at h
  split at h
  · cases h
  · obtain rfl := Except.error.inj h
    rfl

/-- A name without a value is no variable, or not bound, or bound to what is not finite. -/
theorem resolve_error_cases {policy : AliasPolicy} {bindings : Bindings} {name : String}
    {error : FormulaError} (h : resolve policy bindings name = .error error) :
    error.isOfValue = true ∨ isVariable name = false ∧ error = .unknownIdentifier name ∨
      isVariable name = true ∧ bindings.get? (policy.canonical name) = none ∧
        error = .unboundVariable name := by
  rw [resolve] at h
  split at h
  · next hvariable => exact .inr (.inl ⟨by simpa using hvariable, (Except.error.inj h).symm⟩)
  · next hvariable =>
    split at h
    · next hbound => exact .inr (.inr ⟨by simpa using hvariable, hbound, (Except.error.inj h).symm⟩)
    · exact .inl (requireFinite_error h)

theorem resolve_error {policy : AliasPolicy} {bindings : Bindings} {name : String}
    {error : FormulaError} (h : resolve policy bindings name = .error error) :
    error.isOfEvaluation = true := by
  rcases resolve_error_cases h with h | ⟨-, rfl⟩ | ⟨-, -, rfl⟩
  · exact FormulaError.isOfEvaluation_of_isOfValue h
  · rfl
  · rfl

theorem Operator.apply_error {op : Operator} {a b : Float} {error : FormulaError}
    (h : op.apply a b = .error error) : error.isOfValue = true := by
  rw [Operator.apply] at h
  split at h
  · obtain rfl := Except.error.inj h
    rfl
  · exact requireFinite_error h

theorem Builtin.call_error {f : Builtin} {args : List Float} {error : FormulaError}
    (h : f.call args = .error error) : error.isOfValue = true := by
  rw [Builtin.call] at h
  split at h
  · exact requireFinite_error h
  · obtain rfl := Except.error.inj h
    rfl

/-! ## Functions -/

section

variable {policy : AliasPolicy} {bindings : Bindings}

theorem numbers_call_of_isName (policy : AliasPolicy) (bindings : Bindings) {function : String}
    (h : Builtin.isName function = true) :
    ∃ f, Builtin.ofName? function = some f ∧ (numbers policy bindings).call function = .ok f.call := by
  rw [Builtin.isName, Option.isSome_iff_exists] at h
  obtain ⟨f, hf⟩ := h
  refine ⟨f, hf, ?_⟩
  simp only [numbers, hf]

theorem isName_of_numbers_call {function : String} {body : List Float → Except FormulaError Float}
    (h : (numbers policy bindings).call function = .ok body) :
    ∃ f, Builtin.ofName? function = some f ∧ body = f.call := by
  cases hf : Builtin.ofName? function with
  | none =>
    simp only [numbers, hf] at h
    cases h
  | some f =>
    simp only [numbers, hf] at h
    exact ⟨f, rfl, (Except.ok.inj h).symm⟩

/-- Whatever runs on numbers calls only functions that there are. -/
theorem isKnown_of_foldlM {items : List Postfix} {stack after : List Float}
    (h : items.foldlM (numbers policy bindings).step stack = .ok after) :
    ∀ item ∈ items, item.isKnown = true := by
  induction items generalizing stack with
  | nil => simp
  | cons item items ih =>
    rw [List.foldlM_cons] at h
    obtain ⟨between, hs, h⟩ := bind_eq_ok_iff.mp h
    intro other hother
    rcases List.mem_cons.mp hother with rfl | hother
    · cases other with
      | call function argc =>
        obtain ⟨body, hbody, -⟩ := bind_eq_ok_iff.mp hs
        obtain ⟨f, hf, -⟩ := isName_of_numbers_call hbody
        simp only [Postfix.isKnown, Builtin.isName, hf, Option.isSome_some]
      | number value => rfl
      | var name => rfl
      | operator op => rfl
    · exact ih h other hother

/-! ## Values of trees -/

theorem length_evaluateAll {args : List Expr} {values : List Float}
    (h : Expr.evaluateAll policy bindings args = .ok values) : values.length = args.length := by
  induction args generalizing values with
  | nil =>
    obtain rfl : [] = values := Except.ok.inj h
    rfl
  | cons arg args ih =>
    rw [Expr.evaluateAll] at h
    obtain ⟨value, -, h⟩ := bind_eq_ok_iff.mp h
    obtain ⟨rest, hrest, h⟩ := bind_eq_ok_iff.mp h
    obtain rfl : value :: rest = values := Except.ok.inj h
    rw [List.length_cons, List.length_cons, ih hrest]

theorem exists_evaluate_of_mem {args : List Expr} {values : List Float}
    (h : Expr.evaluateAll policy bindings args = .ok values) {arg : Expr} (harg : arg ∈ args) :
    ∃ value, arg.evaluate policy bindings = .ok value := by
  induction args generalizing values with
  | nil => cases harg
  | cons first args ih =>
    rw [Expr.evaluateAll] at h
    obtain ⟨value, hvalue, h⟩ := bind_eq_ok_iff.mp h
    obtain ⟨rest, hrest, -⟩ := bind_eq_ok_iff.mp h
    rcases List.mem_cons.mp harg with rfl | harg
    · exact ⟨value, hvalue⟩
    · exact ih hrest harg

/-- The order of expressions, run on numbers, puts their values on the stack. -/
theorem foldlM_numbers_postorderAll {args : List Expr}
    (ih : ∀ arg ∈ args, ∀ stack, arg.postorder.foldlM (numbers policy bindings).step stack =
      arg.evaluate policy bindings >>= fun value => .ok (value :: stack))
    (stack : List Float) :
    (Expr.postorderAll args).foldlM (numbers policy bindings).step stack =
      Expr.evaluateAll policy bindings args >>= fun values => .ok (values.reverse ++ stack) := by
  induction args generalizing stack with
  | nil => rfl
  | cons arg args ihargs =>
    rw [Expr.postorderAll, List.foldlM_append, ih arg List.mem_cons_self, Expr.evaluateAll]
    cases arg.evaluate policy bindings with
    | error fault => rfl
    | ok value =>
      rw [ok_bind, ok_bind, ok_bind, ihargs fun other h => ih other (List.mem_cons_of_mem _ h)]
      cases Expr.evaluateAll policy bindings args with
      | error fault => rfl
      | ok values =>
        simp only [ok_bind, pure_eq_ok, List.reverse_cons, List.append_assoc, List.singleton_append]

/-- The order of a tree of known functions, run on numbers, puts the value of the tree on top, or
fails as the evaluation of the tree does. -/
theorem foldlM_numbers_postorder (e : Expr) (known : ∀ item ∈ e.postorder, item.isKnown = true)
    (stack : List Float) :
    e.postorder.foldlM (numbers policy bindings).step stack =
      e.evaluate policy bindings >>= fun value => .ok (value :: stack) := by
  induction e generalizing stack with
  | number value => rfl
  | var name =>
    rw [Expr.evaluate]
    show (resolve policy bindings name >>= _) >>= _ = _
    cases resolve policy bindings name <;> rfl
  | call function args ih =>
    rw [Expr.postorder] at known ⊢
    have hall : ∀ arg ∈ args, ∀ item ∈ arg.postorder, item.isKnown = true := fun arg harg item h =>
      known item (List.mem_append_left _ (Expr.mem_postorderAll.mpr ⟨arg, harg, h⟩))
    obtain ⟨f, hf, hcall⟩ := numbers_call_of_isName policy bindings
      (known (.call function args.length) (by simp))
    rw [List.foldlM_append, foldlM_numbers_postorderAll fun arg harg => ih arg harg (hall arg harg),
      Expr.evaluate, hf]
    cases hargs : Expr.evaluateAll policy bindings args with
    | error fault => rfl
    | ok values =>
      have hlen := length_evaluateAll hargs
      simp only [ok_bind, List.foldlM_cons, List.foldlM_nil]
      rw [Interpretation.step_call hcall, if_neg (by simp [hlen]), ← hlen, ← List.length_reverse,
        List.take_left, List.drop_left, List.reverse_reverse]
      cases f.call values <;> rfl
  | binary op left right ihleft ihright =>
    rw [Expr.postorder] at known ⊢
    rw [List.foldlM_append, List.foldlM_append, ihleft fun item h => known item (by simp [h]),
      Expr.evaluate]
    cases left.evaluate policy bindings with
    | error fault => rfl
    | ok a =>
      rw [ok_bind, ok_bind, ihright fun item h => known item (by simp [h])]
      cases right.evaluate policy bindings with
      | error fault => rfl
      | ok b =>
        show (op.apply a b >>= _) >>= _ = op.apply a b >>= _
        cases op.apply a b <;> rfl

/-- A tree that has a value calls only functions that there are. -/
theorem isKnown_of_evaluate {e : Expr} {value : Float}
    (h : e.evaluate policy bindings = .ok value) : ∀ item ∈ e.postorder, item.isKnown = true := by
  induction e generalizing value with
  | number x => simp [Expr.postorder, Postfix.isKnown]
  | var name => simp [Expr.postorder, Postfix.isKnown]
  | call function args ih =>
    rw [Expr.evaluate] at h
    cases hf : Builtin.ofName? function with
    | none =>
      rw [hf] at h
      cases h
    | some f =>
      rw [hf] at h
      obtain ⟨values, hargs, -⟩ := bind_eq_ok_iff.mp h
      intro item hitem
      rw [Expr.postorder, List.mem_append, List.mem_singleton] at hitem
      rcases hitem with hitem | rfl
      · obtain ⟨arg, harg, hitem⟩ := Expr.mem_postorderAll.mp hitem
        obtain ⟨value, hvalue⟩ := exists_evaluate_of_mem hargs harg
        exact ih arg harg hvalue item hitem
      · simp only [Postfix.isKnown, Builtin.isName, hf, Option.isSome_some]
  | binary op left right ihleft ihright =>
    rw [Expr.evaluate] at h
    obtain ⟨a, hleft, h⟩ := bind_eq_ok_iff.mp h
    obtain ⟨b, hright, -⟩ := bind_eq_ok_iff.mp h
    intro item hitem
    rw [Expr.postorder, List.mem_append, List.mem_append, List.mem_singleton] at hitem
    rcases hitem with (hitem | hitem) | rfl
    · exact ihleft hleft item hitem
    · exact ihright hright item hitem
    · rfl

/-- The machine on the order of a tree of known functions is the evaluation of the tree. -/
theorem evaluate_postorder {e : Expr} (known : ∀ item ∈ e.postorder, item.isKnown = true) :
    Postfix.evaluate policy bindings e.postorder = e.evaluate policy bindings := by
  rw [Postfix.evaluate, Interpretation.run, foldlM_numbers_postorder e known]
  cases e.evaluate policy bindings <;> rfl

/-! ## The two stacks side by side -/

/-- On stacks of one height, an item fails to evaluate, or it lacks the same values on both, or it
runs on both. -/
theorem numbers_step_cases (policy : AliasPolicy) (bindings : Bindings) {stack : List Float}
    {built : List Expr} (hlen : stack.length = built.length) (item : Postfix) :
    (∃ error, (numbers policy bindings).step stack item = .error error ∧
        error.isOfEvaluation = true) ∨
      (∃ shape, (numbers policy bindings).step stack item = .error (.malformed shape) ∧
        Expr.trees.step built item = .error (.malformed shape)) ∨
      ∃ next grown, (numbers policy bindings).step stack item = .ok next ∧
        Expr.trees.step built item = .ok grown ∧ next.length = grown.length := by
  cases item with
  | number value => exact .inr (.inr ⟨_, _, rfl, rfl, by simp [hlen]⟩)
  | var name =>
    cases h : resolve policy bindings name with
    | error error =>
      refine .inl ⟨error, ?_, resolve_error h⟩
      show resolve policy bindings name >>= _ = _
      rw [h, error_bind]
    | ok value =>
      refine .inr (.inr ⟨value :: stack, .var name :: built, ?_, rfl, by simp [hlen]⟩)
      show resolve policy bindings name >>= _ = _
      rw [h, ok_bind, pure_eq_ok]
  | operator op =>
    match stack, built with
    | [], [] => exact .inr (.inl ⟨_, rfl, rfl⟩)
    | [_], [_] => exact .inr (.inl ⟨_, rfl, rfl⟩)
    | b :: a :: stack, right :: left :: built =>
      cases h : op.apply a b with
      | error error =>
        refine .inl ⟨error, ?_, FormulaError.isOfEvaluation_of_isOfValue (Operator.apply_error h)⟩
        show op.apply a b >>= _ = _
        rw [h, error_bind]
      | ok value =>
        refine .inr (.inr ⟨value :: stack, .binary op left right :: built, ?_, rfl, ?_⟩)
        · show op.apply a b >>= _ = _
          rw [h, ok_bind, pure_eq_ok]
        · simpa using hlen
  | call function argc =>
    cases hf : Builtin.ofName? function with
    | none =>
      refine .inl ⟨.unknownFunction function, ?_, rfl⟩
      simp only [Interpretation.step, numbers, hf, error_bind]
    | some f =>
      have hcall : (numbers policy bindings).call function = .ok f.call := by
        simp only [numbers, hf]
      rw [Interpretation.step_call hcall, Interpretation.step_call rfl, hlen]
      by_cases few : built.length < argc
      · rw [if_pos few, if_pos few]
        exact .inr (.inl ⟨_, rfl, rfl⟩)
      · rw [if_neg few, if_neg few]
        cases h : f.call (stack.take argc).reverse with
        | error error =>
          exact .inl ⟨error, rfl, FormulaError.isOfEvaluation_of_isOfValue (Builtin.call_error h)⟩
        | ok value => exact .inr (.inr ⟨_, _, rfl, rfl, by simp [hlen]⟩)

/-- If the trees of a sequence do not come to one tree, the machine fails as well: with the same
fault, or with an item that fails to evaluate and is not after the one that lacks values. -/
theorem numbers_of_trees_error (policy : AliasPolicy) (bindings : Bindings) {items : List Postfix}
    (stack : List Float) (built : List Expr) (hlen : stack.length = built.length) {fault : FormulaError}
    (h : items.foldlM Expr.trees.step built >>= Interpretation.single = .error fault) :
    items.foldlM (numbers policy bindings).step stack >>= Interpretation.single = .error fault ∨
      ∃ place error, (numbers policy bindings).StopsAt stack items place error ∧
        error.isOfEvaluation = true ∧
        ∀ later lack, Expr.trees.StopsAt built items later lack → place ≤ later := by
  induction items generalizing stack built with
  | nil =>
    match stack, built with
    | [], [] =>
      obtain rfl := Except.error.inj h
      exact .inl rfl
    | [_], [_] => cases h
    | _ :: _ :: stack, _ :: _ :: built =>
      obtain rfl := Except.error.inj h
      left
      show Except.error _ = Except.error _
      simp only [List.length_cons] at hlen ⊢
      rw [hlen]
  | cons item items ih =>
    rw [List.foldlM_cons] at h ⊢
    rcases numbers_step_cases policy bindings hlen item with
      ⟨error, hnum, heval⟩ | ⟨lack, hnum, htree⟩ | ⟨next, grown, hnum, htree, hlen'⟩
    · exact .inr ⟨0, error, Interpretation.stopsAt_zero_iff.mpr hnum, heval, fun _ _ _ => Nat.zero_le _⟩
    · rw [htree, error_bind, error_bind] at h
      obtain rfl := Except.error.inj h
      left
      rw [hnum, error_bind, error_bind]
    · rw [htree, ok_bind] at h
      rw [hnum, ok_bind]
      rcases ih next grown hlen' h with hrun | ⟨place, error, hstop, heval, hfirst⟩
      · exact .inl hrun
      · refine .inr ⟨place + 1, error, (Interpretation.stopsAt_succ_iff hnum).mpr hstop, heval, ?_⟩
        intro later lack hlater
        cases later with
        | zero =>
          rw [Interpretation.stopsAt_zero_iff, htree] at hlater
          cases hlater
        | succ later =>
          have := hfirst later lack ((Interpretation.stopsAt_succ_iff htree).mp hlater)
          omega

end

/-! ## Top theorem -/

/-- **The stack machine agrees with the tree.**  They give the same values; if every function is
known, they give the same errors; and where there is no tree, the machine reports what is wrong with
the shape, unless an item at that place or before it cannot be evaluated. -/
theorem evaluate_postfix_eq_tree (policy : AliasPolicy) (bindings : Bindings)
    (items : List Postfix) :
    (∀ value, Postfix.evaluate policy bindings items = .ok value ↔
      ∃ e, Expr.ofPostfix items = .ok e ∧ e.evaluate policy bindings = .ok value) ∧
    (∀ e, Expr.ofPostfix items = .ok e → (∀ item ∈ items, item.isKnown = true) →
      Postfix.evaluate policy bindings items = e.evaluate policy bindings) ∧
    ∀ fault, Expr.ofPostfix items = .error fault →
      (∃ shape, fault = .malformed shape) ∧
      (Postfix.evaluate policy bindings items = .error fault ∨
        ∃ place error, Postfix.evaluate policy bindings items = .error error ∧
          error.isOfEvaluation = true ∧
          (numbers policy bindings).StopsAt [] items place error ∧
          ∀ later lack, Expr.trees.StopsAt [] items later lack → place ≤ later) := by
  refine ⟨fun value => ⟨fun h => ?_, ?_⟩, ?_, fun fault h => ⟨Expr.ofPostfix_error h, ?_⟩⟩
  · -- an unknown function would have stopped the machine, so the tree has its value
    obtain ⟨stack, hrun, hsingle⟩ := bind_eq_ok_iff.mp h
    cases htree : Expr.ofPostfix items with
    | ok e =>
      obtain rfl := Expr.ofPostfix_eq_ok_iff.mp htree
      rw [evaluate_postorder (isKnown_of_foldlM hrun)] at h
      exact ⟨e, rfl, h⟩
    | error fault =>
      rcases numbers_of_trees_error policy bindings [] [] rfl htree with
        hnum | ⟨place, error, hstop, -, -⟩
      · rw [Postfix.evaluate, Interpretation.run, hnum] at h
        cases h
      · rw [Interpretation.foldlM_of_stopsAt hstop] at hrun
        cases hrun
  · rintro ⟨e, htree, h⟩
    obtain rfl := Expr.ofPostfix_eq_ok_iff.mp htree
    rw [evaluate_postorder (isKnown_of_evaluate h), h]
  · intro e htree known
    obtain rfl := Expr.ofPostfix_eq_ok_iff.mp htree
    exact evaluate_postorder known
  · rcases numbers_of_trees_error policy bindings [] [] rfl h with
      hnum | ⟨place, error, hstop, heval, hfirst⟩
    · exact .inl hnum
    · refine .inr ⟨place, error, ?_, heval, hstop, hfirst⟩
      rw [Postfix.evaluate, Interpretation.run, Interpretation.foldlM_of_stopsAt hstop, error_bind]

end TradePlan
