import TradePlan.Proofs.Contents
import TradePlan.Proofs.Mentions

/-!
# Values in place of names

A variable may be written as the number that is its value.  Nothing in the conversion of tokens, and
nothing in the construction of the tree, depends on whether an operand is a name or a number: both
commute with putting numbers in place of names, and fail alike.

    ofTokens (Token.substitute valueOf tokens) = (ofTokens tokens).map (List.map (substitute valueOf))
                                                                              (ofTokens_substitute)
    ofPostfix (items.map (substitute valueOf)) = (ofPostfix items).map (substitute valueOf)
                                                                              (ofPostfix_substitute)

If every name has a value, the tree with numbers has the same value as the tree with names.
-/

namespace TradePlan

/-! ## Substitution -/

/-- The value that a name has in a formula, whether or not it is the name of a variable. -/
def Bindings.valueOf (bindings : Bindings) (policy : AliasPolicy) (name : String) : Option Float :=
  bindings.get? (policy.canonical name)

/-- The tokens with numbers in place of the names that have a value and are not called. -/
def Token.substitute (valueOf : String → Option Float) : List Token → List Token
  | [] => []
  | .identifier name :: .leftParen :: rest =>
    .identifier name :: .leftParen :: substitute valueOf rest
  | .identifier name :: rest =>
    ((valueOf name).map .number).getD (.identifier name) :: substitute valueOf rest
  | token :: rest => token :: substitute valueOf rest

/-- The item with a number in place of a variable that has a value. -/
def Postfix.substitute (valueOf : String → Option Float) : Postfix → Postfix
  | .var name => ((valueOf name).map .number).getD (.var name)
  | item => item

namespace Expr

mutual

/-- The tree with numbers in place of the variables that have a value. -/
def substitute (valueOf : String → Option Float) : Expr → Expr
  | .number value => .number value
  | .var name => ((valueOf name).map .number).getD (.var name)
  | .call function args => .call function (substituteAll valueOf args)
  | .binary op left right => .binary op (left.substitute valueOf) (right.substitute valueOf)

def substituteAll (valueOf : String → Option Float) : List Expr → List Expr
  | [] => []
  | arg :: args => arg.substitute valueOf :: substituteAll valueOf args

end

theorem substituteAll_eq_map (valueOf : String → Option Float) (args : List Expr) :
    substituteAll valueOf args = args.map (substitute valueOf) := by
  induction args with
  | nil => rfl
  | cons arg args ih => rw [substituteAll, ih, List.map_cons]

end Expr

section

variable (valueOf : String → Option Float)

/-! ## Conversion -/

namespace Token

theorem head?_substitute_eq_leftParen_iff (tokens : List Token) :
    (substitute valueOf tokens).head? = some .leftParen ↔ tokens.head? = some .leftParen := by
  fun_cases substitute valueOf tokens with
  | case1 => rfl
  | case2 name rest => simp
  | case3 name rest hrest => cases hvalue : valueOf name <;> simp
  | case4 token rest => rfl

end Token

namespace Postfix

open Conversion

theorem effect_substitute (item : Postfix) : (item.substitute valueOf).effect = item.effect := by
  cases item with
  | var name =>
    rw [substitute]
    cases valueOf name <;> rfl
  | _ => rfl

theorem height_map_substitute (items : List Postfix) :
    height (items.map (substitute valueOf)) = height items := by
  induction items with
  | nil => rfl
  | cons item items ih => rw [List.map_cons, height, height, effect_substitute, ih]

namespace Output

def substitute (output : Output) : Output where
  items := output.items.map (Postfix.substitute valueOf)
  depth := output.depth
  depth_eq := by rw [height_map_substitute, output.depth_eq]

theorem push_substitute (output : Output) (item : Postfix) :
    (output.substitute valueOf).push (item.substitute valueOf) =
      (output.push item).substitute valueOf := by
  simp only [push, substitute, effect_substitute, List.map_cons]

theorem release_substitute (output : Output) (condition : Operator → Bool)
    (pending : List Pending) :
    (output.substitute valueOf).release condition pending =
      ((output.release condition pending).1.substitute valueOf,
        (output.release condition pending).2) := by
  induction pending generalizing output with
  | nil => rfl
  | cons top pending ih =>
    cases top with
    | operator op =>
      rw [release, release]
      split
      · rw [← ih, ← push_substitute]
        rfl
      · rfl
    | paren => rfl
    | call function commas mark => rfl

end Output

namespace Conversion

def substitute (c : Conversion) : Conversion := ⟨c.output.substitute valueOf, c.pending, c.opened⟩

theorem operand_substitute (c : Conversion) (item : Postfix) :
    (c.substitute valueOf).operand (item.substitute valueOf) =
      (c.operand item).substitute valueOf := by
  rw [operand, operand, substitute, Output.push_substitute]
  rfl

theorem operate_substitute (c : Conversion) (op : Operator) :
    (c.substitute valueOf).operate op = (c.operate op).substitute valueOf := by
  rw [operate, operate, substitute, Output.release_substitute]
  rfl

theorem comma_substitute (c : Conversion) :
    (c.substitute valueOf).comma = c.comma.map (substitute valueOf) := by
  rw [comma, comma, substitute, Output.release_substitute]
  obtain ⟨output, pending⟩ := c.output.release (fun _ => true) c.pending
  cases pending with
  | nil => rfl
  | cons top pending =>
    cases top with
    | operator op => rfl
    | paren => rfl
    | call function commas mark =>
      show (output.checkArgument function mark >>= _) = (output.checkArgument function mark >>= _).map _
      cases output.checkArgument function mark <;> rfl

theorem close_substitute (c : Conversion) :
    (c.substitute valueOf).close = c.close.map (substitute valueOf) := by
  rw [close, close, substitute, Output.release_substitute]
  obtain ⟨output, pending⟩ := c.output.release (fun _ => true) c.pending
  cases pending with
  | nil => rfl
  | cons top pending =>
    cases top with
    | operator op => rfl
    | paren => rfl
    | call function commas mark =>
      show (if c.opened = true then _ else (output.checkArgument function mark >>= _)) =
        (if c.opened = true then _ else (output.checkArgument function mark >>= _)).map _
      split
      · rfl
      · cases output.checkArgument function mark <;> rfl

theorem run_substitute (c : Conversion) (tokens : List Token) :
    (c.substitute valueOf).run (Token.substitute valueOf tokens) =
      (c.run tokens).map (substitute valueOf) := by
  fun_induction run c tokens with
  | case1 c => rfl
  | case2 c name rest hname ih =>
    rw [Token.substitute, run, if_pos hname]
    exact ih
  | case3 c name rest hname =>
    rw [Token.substitute, run, if_neg hname]
    rfl
  | case4 c name rest hrest ih =>
    have hhead : (Token.substitute valueOf rest).head? ≠ some .leftParen := by
      rw [Ne, Token.head?_substitute_eq_leftParen_iff]
      intro h
      obtain ⟨tail, rfl⟩ := List.head?_eq_some_iff.mp h
      exact hrest tail rfl
    have hoperand := operand_substitute valueOf c (.var name)
    rw [Token.substitute.eq_3 _ _ _ hrest, ← ih, ← hoperand, Postfix.substitute]
    cases valueOf name with
    | none => exact run_var hhead
    | some value => rfl
  | case5 c value rest ih =>
    rw [← ih, ← operand_substitute]
    rfl
  | case6 c op rest ih =>
    rw [← ih, ← operate_substitute]
    rfl
  | case7 c rest ih => exact ih
  | case8 c rest ih =>
    rw [Token.substitute.eq_4 _ _ _ (by simp) (by simp), run, comma_substitute]
    cases c.comma with
    | error fault => rfl
    | ok next => exact ih next
  | case9 c rest ih =>
    rw [Token.substitute.eq_4 _ _ _ (by simp) (by simp), run, close_substitute]
    cases c.close with
    | error fault => rfl
    | ok next => exact ih next

theorem finish_substitute (output : Output) (pending : List Pending) :
    finish (output.substitute valueOf) pending =
      (finish output pending).map (List.map (Postfix.substitute valueOf)) := by
  induction pending generalizing output with
  | nil => exact congrArg Except.ok List.map_reverse.symm
  | cons top pending ih =>
    cases top with
    | operator op =>
      rw [finish, finish, ← ih, ← Output.push_substitute]
      rfl
    | paren => exact ih output
    | call function commas mark =>
      show (output.checkArgument function mark >>= _) =
        (output.checkArgument function mark >>= _).map _
      cases output.checkArgument function mark with
      | error fault => rfl
      | ok _ =>
        rw [ok_bind, ok_bind, ← ih, ← Output.push_substitute]
        rfl

end Conversion

/-- **The conversion of tokens commutes with substitution.** -/
theorem ofTokens_substitute (tokens : List Token) :
    ofTokens (Token.substitute valueOf tokens) =
      (ofTokens tokens).map (List.map (substitute valueOf)) := by
  have hrun := run_substitute valueOf start tokens
  rw [ofTokens, ofTokens]
  show (start.substitute valueOf).run _ >>= _ = _
  rw [hrun]
  cases start.run tokens with
  | error fault => rfl
  | ok c => exact finish_substitute valueOf c.output c.pending

end Postfix

/-! ## Trees -/

namespace Interpretation

variable {α β : Type} {meaning : Interpretation α} {image : Interpretation β} {f : α → β}

theorem single_map (stack : List α) : single (stack.map f) = (single stack).map f := by
  match stack with
  | [] => rfl
  | [value] => rfl
  | top :: next :: rest =>
    simp only [single, List.map_cons, List.length_cons, List.length_map]
    rfl

theorem foldlM_map {g : Postfix → Postfix}
    (hstep : ∀ stack item, image.step (stack.map f) (g item) =
      (meaning.step stack item).map (List.map f))
    (items : List Postfix) (stack : List α) :
    (items.map g).foldlM image.step (stack.map f) =
      (items.foldlM meaning.step stack).map (List.map f) := by
  induction items generalizing stack with
  | nil => rfl
  | cons item items ih =>
    rw [List.map_cons, List.foldlM_cons, List.foldlM_cons, hstep]
    cases meaning.step stack item with
    | error fault => rfl
    | ok next => exact ih next

/-- What each item does to images of values, a sequence does to the image of its value. -/
theorem run_map {g : Postfix → Postfix}
    (hstep : ∀ stack item, image.step (stack.map f) (g item) =
      (meaning.step stack item).map (List.map f))
    (items : List Postfix) : image.run (items.map g) = (meaning.run items).map f := by
  have hfold := foldlM_map hstep items []
  rw [List.map_nil] at hfold
  rw [run, run, hfold]
  cases items.foldlM meaning.step [] with
  | error fault => rfl
  | ok stack => exact single_map stack

end Interpretation

namespace Expr

theorem step_substitute (stack : List Expr) (item : Postfix) :
    trees.step (stack.map (substitute valueOf)) (item.substitute valueOf) =
      (trees.step stack item).map (List.map (substitute valueOf)) := by
  cases item with
  | number value => rfl
  | var name =>
    show _ = Except.ok (((var name).substitute valueOf) :: stack.map (substitute valueOf))
    rw [Postfix.substitute, substitute]
    cases valueOf name <;> rfl
  | operator op =>
    match stack with
    | [] => rfl
    | [top] => rfl
    | right :: left :: rest => rfl
  | call function argc =>
    show trees.step (stack.map (substitute valueOf)) (.call function argc) = _
    rw [Interpretation.step_call rfl, Interpretation.step_call rfl, List.length_map]
    split
    · rfl
    · rw [← List.map_take, ← List.map_reverse, ← List.map_drop, ← substituteAll_eq_map]
      rfl

/-- **The construction of the tree commutes with substitution.** -/
theorem ofPostfix_substitute (items : List Postfix) :
    ofPostfix (items.map (Postfix.substitute valueOf)) =
      (ofPostfix items).map (substitute valueOf) :=
  Interpretation.run_map (step_substitute valueOf) items

end Expr

end

/-! ## Values -/

section

variable {policy other : AliasPolicy} {bindings others : Bindings}

/-- A tree whose variables all have values is worth the same with its variables and with their
values. -/
theorem Expr.evaluate_substitute {valueOf : String → Option Float} {e : Expr}
    (h : ∀ name ∈ e.mentions, ∃ value, valueOf name = some value ∧
      resolve policy bindings name = .ok value) :
    (e.substitute valueOf).evaluate other others = e.evaluate policy bindings := by
  induction e with
  | number value => rfl
  | var name =>
    obtain ⟨value, hvalue, hresolve⟩ := h name List.mem_cons_self
    rw [substitute, hvalue, evaluate, hresolve]
    rfl
  | call function args ih =>
    have hargs : evaluateAll other others (args.map (substitute valueOf)) =
        evaluateAll policy bindings args :=
      evaluateAll_map fun arg harg => ih arg harg fun name hname =>
        h name (mem_mentionsAll.mpr ⟨arg, harg, hname⟩)
    rw [substitute, substituteAll_eq_map, evaluate, evaluate, hargs]
  | binary op left right ihleft ihright =>
    rw [mentions] at h
    rw [substitute, evaluate, evaluate,
      ihleft fun name hname => h name (List.mem_append_left _ hname),
      ihright fun name hname => h name (List.mem_append_right _ hname)]

end

/-! ## Top theorem -/

/-- **A variable is the number that is its value.**  If every name that is not called is a variable
with a finite value, the tokens with numbers in place of names have the postfix order with numbers
in place of variables, or the same fault, and the trees of both orders have the same value, or the
same fault.  With numbers, neither the policy nor the values of variables matter any more. -/
theorem evaluate_substituted_tokens {policy : AliasPolicy} {bindings : Bindings}
    {tokens : List Token}
    (h : ∀ name, .identifier name ∈ Token.operandTokens tokens → isVariable name = true ∧
      ∃ value, bindings.valueOf policy name = some value ∧ value.isFinite = true) :
    Postfix.ofTokens (Token.substitute (bindings.valueOf policy) tokens) =
      (Postfix.ofTokens tokens).map (List.map (Postfix.substitute (bindings.valueOf policy))) ∧
    ∀ items, Postfix.ofTokens tokens = .ok items → ∀ other others,
      (Expr.ofPostfix (items.map (Postfix.substitute (bindings.valueOf policy))) >>= fun e =>
        e.evaluate other others) =
      (Expr.ofPostfix items >>= fun e => e.evaluate policy bindings) := by
  refine ⟨Postfix.ofTokens_substitute _ tokens, fun items hitems other others => ?_⟩
  rw [Expr.ofPostfix_substitute]
  cases htree : Expr.ofPostfix items with
  | error fault => rfl
  | ok e =>
    obtain rfl := Expr.ofPostfix_eq_ok_iff.mp htree
    refine Expr.evaluate_substitute fun name hname => ?_
    rw [← Expr.variables_postorder, Postfix.mem_variables] at hname
    have hmem : .identifier name ∈ Token.operandTokens tokens := by
      rw [← Postfix.operands_ofTokens hitems]
      exact List.mem_filterMap.mpr ⟨_, hname, rfl⟩
    obtain ⟨hvariable, value, hvalue, hfinite⟩ := h name hmem
    exact ⟨value, hvalue, resolve_eq_ok_iff.mpr ⟨hvariable, hvalue, hfinite⟩⟩

/-- In `max(entry, low) * stop_loss` the alias is worth what the entry price is. -/
theorem evaluate_substituted_tokens_alias :
    let tokens := [.identifier "max", .leftParen, .identifier "entry", .comma, .identifier "low",
      .rightParen, .operator .mul, .identifier "stop_loss"]
    let items := [.var "entry", .var "low", .call "max" 2, .var "stop_loss", .operator .mul]
    let numbers := [.number 100, .number 95, .call "max" 2, .number 100, .operator .mul]
    let valueOf := Formula.sampleBindings.valueOf .collapse
    (∀ name, .identifier name ∈ Token.operandTokens tokens → isVariable name = true ∧
      ∃ value, valueOf name = some value ∧ value.isFinite = true) ∧
    Postfix.ofTokens tokens = .ok items ∧
    Postfix.ofTokens (Token.substitute valueOf tokens) = .ok numbers ∧
    ∀ other others, (Expr.ofPostfix numbers >>= fun e => e.evaluate other others) =
      (Expr.ofPostfix items >>= fun e => e.evaluate .collapse Formula.sampleBindings) := by
  intro tokens items numbers valueOf
  have hentry : valueOf "entry" = some 100 := by decide +kernel
  have hlow : valueOf "low" = some 95 := by decide +kernel
  have halias : valueOf "stop_loss" = some 100 := by decide +kernel
  have h : ∀ name, .identifier name ∈ Token.operandTokens tokens → isVariable name = true ∧
      ∃ value, valueOf name = some value ∧ value.isFinite = true := by
    intro name hname
    have hnames : name = "entry" ∨ name = "low" ∨ name = "stop_loss" := by
      simpa [tokens, Token.operandTokens] using hname
    rcases hnames with rfl | rfl | rfl
    · exact ⟨by decide, 100, hentry, by decide +kernel⟩
    · exact ⟨by decide, 95, hlow, by decide +kernel⟩
    · exact ⟨by decide, 100, halias, by decide +kernel⟩
  have horder : Postfix.ofTokens tokens = .ok items := rfl
  have hnumbers : items.map (Postfix.substitute valueOf) = numbers := by
    simp only [items, numbers, List.map_cons, List.map_nil, Postfix.substitute, hentry, hlow, halias]
    rfl
  obtain ⟨hsubstitute, hvalue⟩ := evaluate_substituted_tokens h
  rw [horder] at hsubstitute
  have hvalue := hvalue items horder
  rw [hnumbers] at hvalue
  exact ⟨h, horder, hsubstitute.trans (congrArg Except.ok hnumbers), hvalue⟩

end TradePlan
