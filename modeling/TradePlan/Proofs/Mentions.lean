import TradePlan.Formula.Evaluate
import TradePlan.Proofs.Leaves

/-!
# What a value depends on

The value of a formula depends on the values of the variables that it mentions, and on nothing else
of the bindings and of the policy on aliases.  Two readings that look up each of these variables
alike give the same value, or fail with the same error:

    (∀ name, .identifier name ∈ tokens → LooksUpAlike policy bindings other others name) →
      Formula.evaluate policy bindings formula = Formula.evaluate other others formula
                                                                        (evaluate_congr)

A tree mentions its variables in their order in the postfix sequence, which is that of the tokens.
-/

namespace TradePlan

/-! ## Variables of trees and of sequences -/

theorem Postfix.variables_append (items others : List Postfix) :
    Postfix.variables (items ++ others) = Postfix.variables items ++ Postfix.variables others := by
  rw [Postfix.variables, List.filterMap_append]
  rfl

theorem Postfix.mem_variables {items : List Postfix} {name : String} :
    name ∈ Postfix.variables items ↔ .var name ∈ items := by
  rw [Postfix.variables, List.mem_filterMap]
  constructor
  · rintro ⟨item, hitem, hname⟩
    cases item with
    | var other =>
      obtain rfl := Option.some.inj hname
      exact hitem
    | number value => cases hname
    | operator op => cases hname
    | call function argc => cases hname
  · intro h
    exact ⟨.var name, h, rfl⟩

/-- A converted sequence has only variables that are written. -/
theorem identifier_mem_of_ofTokens {tokens : List Token} {items : List Postfix}
    (h : Postfix.ofTokens tokens = .ok items) {name : String} (hname : name ∈ Postfix.variables items) :
    .identifier name ∈ tokens := by
  rw [← variables_leaves, Postfix.leaves_ofTokens h] at hname
  exact Token.mem_of_mem_leavesFrom (Postfix.mem_variables.mp hname) rfl

namespace Expr

theorem variables_postorderAll {args : List Expr}
    (ih : ∀ arg ∈ args, Postfix.variables arg.postorder = arg.mentions) :
    Postfix.variables (postorderAll args) = mentionsAll args := by
  induction args with
  | nil => rfl
  | cons arg args ihargs =>
    rw [postorderAll, Postfix.variables_append, ih arg List.mem_cons_self,
      ihargs fun other h => ih other (List.mem_cons_of_mem _ h), mentionsAll]

/-- A tree mentions the variables of its order. -/
theorem variables_postorder (e : Expr) : Postfix.variables e.postorder = e.mentions := by
  induction e with
  | number value => rfl
  | var name => rfl
  | call function args ih =>
    rw [postorder, Postfix.variables_append, variables_postorderAll ih, mentions]
    exact List.append_nil _
  | binary op left right ihleft ihright =>
    rw [postorder, Postfix.variables_append, Postfix.variables_append, ihleft, ihright, mentions]
    exact List.append_nil _

/-! ## Values of trees -/

section

variable {policy other : AliasPolicy} {bindings others : Bindings}

/-- Trees made from others have their values if each of them has the value of the other. -/
theorem evaluateAll_map {f : Expr → Expr} {args : List Expr}
    (h : ∀ arg ∈ args, (f arg).evaluate other others = arg.evaluate policy bindings) :
    evaluateAll other others (args.map f) = evaluateAll policy bindings args := by
  induction args with
  | nil => rfl
  | cons arg args ih =>
    rw [List.map_cons, evaluateAll, evaluateAll, h arg List.mem_cons_self,
      ih fun arg harg => h arg (List.mem_cons_of_mem _ harg)]

theorem mem_mentionsAll {args : List Expr} {name : String} :
    name ∈ mentionsAll args ↔ ∃ arg ∈ args, name ∈ arg.mentions := by
  induction args with
  | nil => simp [mentionsAll]
  | cons arg args ih => simp [mentionsAll, ih]

/-- The value of a tree depends on the variables that it mentions. -/
theorem evaluate_eq_of_mentions {e : Expr}
    (h : ∀ name ∈ e.mentions, resolve policy bindings name = resolve other others name) :
    e.evaluate policy bindings = e.evaluate other others := by
  induction e with
  | number value => rfl
  | var name => exact h name List.mem_cons_self
  | call function args ih =>
    have hargs : evaluateAll policy bindings (args.map id) = evaluateAll other others args :=
      evaluateAll_map fun arg harg => ih arg harg fun name hname =>
        h name (mem_mentionsAll.mpr ⟨arg, harg, hname⟩)
    rw [List.map_id] at hargs
    rw [evaluate, evaluate, hargs]
  | binary op left right ihleft ihright =>
    rw [mentions] at h
    rw [evaluate, evaluate, ihleft fun name hname => h name (List.mem_append_left _ hname),
      ihright fun name hname => h name (List.mem_append_right _ hname)]

end

end Expr

/-! ## Looking up names -/

/-- A variable has the same value on both sides, or none on both. -/
def LooksUpAlike (policy : AliasPolicy) (bindings : Bindings) (other : AliasPolicy)
    (others : Bindings) (name : String) : Prop :=
  isVariable name = true → bindings.get? (policy.canonical name) = others.get? (other.canonical name)

section

variable {policy other : AliasPolicy} {bindings others : Bindings}

theorem resolve_congr {name : String} (h : LooksUpAlike policy bindings other others name) :
    resolve policy bindings name = resolve other others name := by
  rw [resolve, resolve]
  by_cases hvariable : isVariable name = true
  · rw [h hvariable]
  · rw [Bool.not_eq_true] at hvariable
    rw [hvariable]
    rfl

theorem nameFault?_congr {name : String} (h : LooksUpAlike policy bindings other others name)
    (called : Bool) :
    nameFault? policy bindings name called = nameFault? other others name called := by
  rw [nameFault?, nameFault?]
  by_cases hvariable : isVariable name = true
  · rw [Bindings.contains, Bindings.contains, h hvariable]
  · rw [Bool.not_eq_true] at hvariable
    rw [hvariable]
    rfl

/-- The check of names depends on the names that are written. -/
theorem checkNames_congr {tokens : List Token}
    (h : ∀ name, .identifier name ∈ tokens → LooksUpAlike policy bindings other others name) :
    checkNames policy bindings tokens = checkNames other others tokens := by
  induction tokens with
  | nil => rfl
  | cons token rest ih =>
    have hrest := ih fun name hname => h name (List.mem_cons_of_mem _ hname)
    cases token with
    | identifier name =>
      rw [checkNames, checkNames, nameFault?_congr (h name List.mem_cons_self), hrest]
    | number value => exact hrest
    | operator op => exact hrest
    | leftParen => exact hrest
    | rightParen => exact hrest
    | comma => exact hrest

/-- **The value of a formula depends on the variables that it writes.** -/
theorem Formula.evaluate_congr {formula : String}
    (h : ∀ tokens, Formula.tokens formula = .ok tokens → ∀ name, .identifier name ∈ tokens →
      LooksUpAlike policy bindings other others name) :
    Formula.evaluate policy bindings formula = Formula.evaluate other others formula := by
  rw [Formula.evaluate, Formula.evaluate]
  cases htokens : Formula.tokens formula with
  | error fault => rfl
  | ok tokens =>
    rw [ok_bind, ok_bind, checkNames_congr (h tokens htokens)]
    -- once the names have passed, the tree mentions only names that are written
    cases horder : Postfix.ofTokens tokens with
    | error fault => rfl
    | ok items =>
      cases htree : Expr.ofPostfix items with
      | error fault => simp only [ok_bind, htree, error_bind]
      | ok e =>
        obtain rfl := Expr.ofPostfix_eq_ok_iff.mp htree
        have hvalue : e.evaluate policy bindings = e.evaluate other others := by
          refine Expr.evaluate_eq_of_mentions fun name hname => resolve_congr ?_
          rw [← Expr.variables_postorder] at hname
          exact h tokens htokens name (identifier_mem_of_ofTokens horder hname)
        simp only [ok_bind, htree, hvalue]

end

end TradePlan
