import TradePlan.Proofs.Machine
import TradePlan.Proofs.Steps

/-!
# Leaves of a formula

The values that a formula writes without an operator or an argument: numbers, variables and calls
without arguments.  The conversion to postfix order keeps them all, in their order, and lets
through only calls of functions that there are:

    Postfix.ofTokens tokens = .ok items → leaves items = Token.leaves tokens    (leaves_ofTokens)

So the check of the names before an evaluation sees nothing but the postfix order.
-/

namespace TradePlan

/-! ## Leaves -/

namespace Postfix

/-- Whether an item is a value by itself. -/
def isLeaf : Postfix → Bool
  | number _ | var _ => true
  | operator _ => false
  | call _ argc => argc == 0

/-- The token that writes a number or a variable. -/
def token? : Postfix → Option Token
  | number value => some (.number value)
  | var name => some (.identifier name)
  | operator _ | call _ _ => none

def leaves (items : List Postfix) : List Postfix := items.filter isLeaf

theorem leaves_append (items others : List Postfix) :
    leaves (items ++ others) = leaves items ++ leaves others := by
  rw [leaves, List.filter_append]
  rfl

theorem leaves_operators (ops : List Operator) : leaves (ops.map .operator) = [] := by
  induction ops with
  | nil => rfl
  | cons op ops ih => exact ih

end Postfix

namespace Token

/-- The leaves of tokens, where `opened` is the call whose parenthesis has just been opened. -/
def leavesFrom (opened : Option String) : List Token → List Postfix
  | [] => []
  | .number value :: rest => .number value :: leavesFrom none rest
  | .identifier name :: .leftParen :: rest => leavesFrom (some name) rest
  | .identifier name :: rest => .var name :: leavesFrom none rest
  | .rightParen :: rest => (opened.map (Postfix.call · 0)).toList ++ leavesFrom none rest
  | _ :: rest => leavesFrom none rest

def leaves (tokens : List Token) : List Postfix := leavesFrom none tokens

theorem leavesFrom_var (opened : Option String) {name : String} {rest : List Token}
    (h : rest.head? ≠ some .leftParen) :
    leavesFrom opened (.identifier name :: rest) = .var name :: leavesFrom none rest := by
  cases rest with
  | nil => rfl
  | cons token rest =>
    cases token with
    | leftParen => exact absurd rfl h
    | _ => rfl

/-- Numbers and variables are written by one of the tokens. -/
theorem mem_of_mem_leavesFrom {tokens : List Token} {opened : Option String} {item : Postfix}
    (h : item ∈ leavesFrom opened tokens) {token : Token} (htoken : item.token? = some token) :
    token ∈ tokens := by
  fun_induction leavesFrom opened tokens with
  | case1 => cases h
  | case2 opened value rest ih =>
    rcases List.mem_cons.mp h with rfl | h
    · obtain rfl : Token.number value = token := Option.some.inj htoken
      exact List.mem_cons_self
    · exact List.mem_cons_of_mem _ (ih h)
  | case3 opened name rest ih =>
    exact List.mem_cons_of_mem _ (List.mem_cons_of_mem _ (ih h))
  | case4 opened name rest hrest ih =>
    rcases List.mem_cons.mp h with rfl | h
    · obtain rfl : Token.identifier name = token := Option.some.inj htoken
      exact List.mem_cons_self
    · exact List.mem_cons_of_mem _ (ih h)
  | case5 opened rest ih =>
    rcases List.mem_append.mp h with h | h
    · cases opened with
      | none => cases h
      | some name =>
        obtain rfl : item = .call name 0 := List.mem_singleton.mp h
        cases htoken
    · exact List.mem_cons_of_mem _ (ih h)
  | case6 opened head rest _ _ _ _ ih => exact List.mem_cons_of_mem _ (ih h)

end Token

/-! ## Runs keep the leaves -/

namespace Postfix

open Conversion

/-- The call whose parenthesis has just been opened. -/
def Conversion.openedCall? (c : Conversion) : Option String :=
  match c.pending with
  | .call function _ _ :: _ => if c.opened then some function else none
  | _ => none

def Output.leaves (output : Output) : List Postfix := Postfix.leaves output.items.reverse

theorem Output.leaves_extend (output : Output) (items : List Postfix) :
    (output.extend items).leaves = output.leaves ++ Postfix.leaves items := by
  rw [Output.leaves, Output.items_extend, List.reverse_append, List.reverse_reverse, leaves_append]
  rfl

theorem Output.leaves_push (output : Output) (item : Postfix) :
    (output.push item).leaves = output.leaves ++ Postfix.leaves [item] :=
  output.leaves_extend [item]

theorem Output.leaves_operators (output : Output) (ops : List Operator) :
    (output.extend (ops.map .operator)).leaves = output.leaves := by
  rw [leaves_extend, Postfix.leaves_operators, List.append_nil]

theorem Conversion.openedCall?_of_not_opened {output : Output} {pending : List Pending} :
    (⟨output, pending, false⟩ : Conversion).openedCall? = none := by
  rw [openedCall?]
  split
  · rfl
  · rfl

/-- After an opening parenthesis nothing but brackets is on top. -/
def Conversion.OpensTop (c : Conversion) : Prop :=
  c.opened = true → ∀ op pending, c.pending ≠ .operator op :: pending

theorem Conversion.Step.opensTop {c next : Conversion} {consumed rest : List Token}
    (h : Step c consumed rest next) : next.OpensTop := by
  cases h <;> intro hopened op pending heq <;> cases hopened <;> cases heq

/-- A step adds to the output the leaves of its tokens. -/
theorem Conversion.Step.leaves_eq {c next : Conversion} {consumed rest : List Token}
    (h : Step c consumed rest next) (htop : c.OpensTop) :
    c.output.leaves ++ Token.leavesFrom c.openedCall? (consumed ++ rest) =
      next.output.leaves ++ Token.leavesFrom next.openedCall? rest := by
  cases h with
  | number value =>
    rw [operand, Output.leaves_push, openedCall?_of_not_opened, List.append_assoc]
    rfl
  | var name hrest =>
    rw [operand, Output.leaves_push, openedCall?_of_not_opened, List.append_assoc]
    rw [List.singleton_append, Token.leavesFrom_var _ hrest]
    rfl
  | openParen => rfl
  | openCall hname => rfl
  | operate op =>
    obtain ⟨ops, pending, -, heq⟩ := operate_eq c op
    rw [heq, Output.leaves_operators, openedCall?_of_not_opened]
    rfl
  | comma hdepth =>
    rw [Output.leaves_operators, openedCall?_of_not_opened]
    rfl
  | @closeStray output ops opened _ =>
    have hopened : (⟨output, waiting ops, opened⟩ : Conversion).openedCall? = none := by
      cases ops <;> rfl
    rw [Output.leaves_operators, hopened]
    rfl
  | @closeParen output ops pending opened _ =>
    have hopened : (⟨output, waiting ops ++ .paren :: pending, opened⟩ : Conversion).openedCall? =
        none := by
      cases ops <;> rfl
    rw [Output.leaves_operators, hopened, openedCall?_of_not_opened]
    rfl
  | @closeCall output ops function commas mark pending _ hdepth =>
    rw [Output.leaves_push, Output.leaves_operators, openedCall?_of_not_opened,
      openedCall?_of_not_opened, List.append_assoc]
    rfl
  | @closeEmpty output ops function commas mark pending _ =>
    obtain rfl : ops = [] := by
      cases ops with
      | nil => rfl
      | cons op ops => exact absurd rfl (htop rfl op _)
    rw [Output.leaves_push, openedCall?_of_not_opened, List.append_assoc]
    rfl

theorem leaves_run {c after : Conversion} {tokens : List Token} (h : run c tokens = .ok after) :
    c.OpensTop → after.output.leaves = c.output.leaves ++ Token.leavesFrom c.openedCall? tokens := by
  refine @run_induction after
    (fun c tokens => c.OpensTop →
      after.output.leaves = c.output.leaves ++ Token.leavesFrom c.openedCall? tokens) ?_ ?_ c tokens h
  · intro _
    exact (List.append_nil _).symm
  · intro c consumed rest next hstep ih htop
    rw [hstep.leaves_eq htop]
    exact ih hstep.opensTop

theorem leaves_finish {output : Output} {pending : List Pending} {items : List Postfix}
    (h : finish output pending = .ok items) : leaves items = output.leaves := by
  induction pending generalizing output with
  | nil =>
    obtain rfl : output.items.reverse = items := Except.ok.inj h
    rfl
  | cons top pending ih =>
    cases top with
    | operator op =>
      rw [ih h, Output.leaves_push]
      exact List.append_nil _
    | paren => exact ih h
    | call function commas mark =>
      obtain ⟨_, -, h⟩ := bind_eq_ok_iff.mp h
      rw [ih h, Output.leaves_push]
      exact List.append_nil _

/-- **The postfix order keeps the leaves of the tokens.** -/
theorem leaves_ofTokens {tokens : List Token} {items : List Postfix}
    (h : ofTokens tokens = .ok items) : leaves items = Token.leaves tokens := by
  obtain ⟨c, hrun, hfinish⟩ := bind_eq_ok_iff.mp h
  rw [leaves_finish hfinish, leaves_run hrun (by intro hopened; cases hopened)]
  rfl

/-! ## Calls are of functions that there are -/

/-- Every call of the output, and every call that is open, is of a function that there is. -/
structure CallsKnown (output : Output) (pending : List Pending) : Prop where
  items : ∀ item ∈ output.items, item.isKnown = true
  pending : ∀ function commas mark, .call function commas mark ∈ pending →
    Builtin.isName function = true

theorem CallsKnown.push {output : Output} {pending : List Pending} (h : CallsKnown output pending)
    {item : Postfix} (hitem : item.isKnown = true) : CallsKnown (output.push item) pending := by
  refine ⟨fun other hother => ?_, h.pending⟩
  rcases List.mem_cons.mp hother with rfl | hother
  · exact hitem
  · exact h.items other hother

/-- Operators that go to the output take nothing with them. -/
theorem CallsKnown.release {output : Output} {ops : List Operator} {pending : List Pending}
    (h : CallsKnown output (waiting ops ++ pending)) :
    CallsKnown (output.extend (ops.map .operator)) pending := by
  refine ⟨fun item hitem => ?_, fun function commas mark hcall =>
    h.pending function commas mark (List.mem_append_right _ hcall)⟩
  rw [Output.items_extend, List.mem_append, List.mem_reverse, List.mem_map] at hitem
  rcases hitem with ⟨op, -, rfl⟩ | hitem
  · rfl
  · exact h.items item hitem

theorem CallsKnown.cons {output : Output} {pending : List Pending} (h : CallsKnown output pending)
    {top : Pending} (htop : ∀ function commas mark, top = .call function commas mark →
      Builtin.isName function = true) : CallsKnown output (top :: pending) := by
  refine ⟨h.items, fun function commas mark hcall => ?_⟩
  rcases List.mem_cons.mp hcall with hcall | hcall
  · exact htop function commas mark hcall.symm
  · exact h.pending function commas mark hcall

theorem CallsKnown.tail {output : Output} {pending : List Pending} {top : Pending}
    (h : CallsKnown output (top :: pending)) : CallsKnown output pending :=
  ⟨h.items, fun function commas mark hcall =>
    h.pending function commas mark (List.mem_cons_of_mem _ hcall)⟩

theorem Conversion.Step.callsKnown {c next : Conversion} {consumed rest : List Token}
    (h : Step c consumed rest next) (hc : CallsKnown c.output c.pending) :
    CallsKnown next.output next.pending := by
  cases h with
  | number value => exact hc.push rfl
  | var name hrest => exact hc.push rfl
  | openParen => exact hc.cons (by simp)
  | openCall hname =>
    refine hc.cons fun function commas mark heq => ?_
    obtain ⟨rfl, -, -⟩ := Pending.call.inj heq
    exact hname
  | operate op =>
    obtain ⟨ops, pending, hpending, heq⟩ := operate_eq c op
    rw [hpending] at hc
    rw [heq]
    exact hc.release.cons (by simp)
  | @comma output ops function commas mark pending opened _ hdepth =>
    have hname := hc.release.pending function commas mark List.mem_cons_self
    refine hc.release.tail.cons fun other _ _ heq => ?_
    obtain ⟨rfl, -, -⟩ := Pending.call.inj heq
    exact hname
  | @closeStray output ops opened _ =>
    have hc : CallsKnown output (waiting ops ++ []) := by
      rw [List.append_nil]
      exact hc
    exact hc.release
  | closeParen => exact hc.release.tail
  | @closeCall output ops function commas mark pending _ hdepth =>
    exact hc.release.tail.push (hc.release.pending function commas mark List.mem_cons_self)
  | @closeEmpty output ops function commas mark pending _ =>
    exact hc.release.tail.push (hc.release.pending function commas mark List.mem_cons_self)

theorem callsKnown_run {c after : Conversion} {tokens : List Token} (h : run c tokens = .ok after) :
    CallsKnown c.output c.pending → CallsKnown after.output after.pending :=
  @run_induction after
    (fun c _ => CallsKnown c.output c.pending → CallsKnown after.output after.pending)
    id (fun _ _ _ _ hstep ih hc => ih (hstep.callsKnown hc)) c tokens h

theorem isKnown_finish {output : Output} {pending : List Pending} {items : List Postfix}
    (h : finish output pending = .ok items) (hc : CallsKnown output pending) :
    ∀ item ∈ items, item.isKnown = true := by
  induction pending generalizing output with
  | nil =>
    obtain rfl : output.items.reverse = items := Except.ok.inj h
    exact fun item hitem => hc.items item (List.mem_reverse.mp hitem)
  | cons top pending ih =>
    cases top with
    | operator op => exact ih h (hc.tail.push rfl)
    | paren => exact ih h hc.tail
    | call function commas mark =>
      obtain ⟨_, -, h⟩ := bind_eq_ok_iff.mp h
      exact ih h (hc.tail.push (hc.pending function commas mark List.mem_cons_self))

/-- **The postfix order calls only functions that there are.** -/
theorem isKnown_ofTokens {tokens : List Token} {items : List Postfix}
    (h : ofTokens tokens = .ok items) : ∀ item ∈ items, item.isKnown = true := by
  obtain ⟨c, hrun, hfinish⟩ := bind_eq_ok_iff.mp h
  refine isKnown_finish hfinish (callsKnown_run hrun ⟨?_, ?_⟩)
  · simp [Conversion.start, Output.empty]
  · simp [Conversion.start]

end Postfix

/-! ## The check of names -/

def Postfix.variables (items : List Postfix) : List String :=
  items.filterMap fun
    | .var name => some name
    | _ => none

theorem variables_leaves (items : List Postfix) :
    Postfix.variables (Postfix.leaves items) = Postfix.variables items := by
  induction items with
  | nil => rfl
  | cons item items ih =>
    simp only [Postfix.leaves, Postfix.variables] at ih ⊢
    cases item with
    | number value => exact ih
    | var name => exact congrArg (name :: ·) ih
    | operator op => exact ih
    | call function argc =>
      cases argc with
      | zero => exact ih
      | succ argc => exact ih

theorem variables_leavesFrom (opened : Option String) (tokens : List Token) :
    Postfix.variables (Token.leavesFrom opened tokens) =
      Postfix.variables (Token.leaves tokens) := by
  match tokens with
  | [] => rfl
  | .rightParen :: rest => cases opened <;> rfl
  | .identifier name :: rest =>
    by_cases h : rest.head? = some .leftParen
    · cases rest with
      | nil => cases h
      | cons token rest =>
        obtain rfl : token = .leftParen := Option.some.inj h
        rfl
    · rw [Token.leaves, Token.leavesFrom_var opened h, Token.leavesFrom_var none h]
  | .number _ :: _ => rfl
  | .operator _ :: _ => rfl
  | .leftParen :: _ => rfl
  | .comma :: _ => rfl

section

variable {policy : AliasPolicy} {bindings : Bindings}

/-- The check of a variable, in front of other tokens. -/
theorem checkNames_var {name : String} {rest : List Token} (h : rest.head? ≠ some .leftParen) :
    checkNames policy bindings (.identifier name :: rest) =
      match nameFault? policy bindings name false with
      | some fault => .error fault
      | none => checkNames policy bindings rest := by
  have hcall : (rest.head? == some .leftParen) = false := beq_eq_false_iff_ne.mpr h
  cases hfault : nameFault? policy bindings name false <;> simp only [checkNames, hcall, hfault]

theorem checkNames_openCall {function : String} {rest : List Token}
    (h : Builtin.isName function = true) :
    checkNames policy bindings (.identifier function :: .leftParen :: rest) =
      checkNames policy bindings rest := by
  rw [checkNames, nameFault?, if_pos h]
  rfl

theorem head?_map_identifier_ne (names : List String) :
    (names.map Token.identifier).head? ≠ some .leftParen := by
  cases names <;> simp

/-- In tokens that are converted, the check of names sees the variables alone. -/
theorem checkNames_run {c after : Postfix.Conversion} {tokens : List Token}
    (h : c.run tokens = .ok after) :
    checkNames policy bindings tokens =
      checkNames policy bindings ((Postfix.variables (Token.leaves tokens)).map .identifier) := by
  refine @Postfix.Conversion.run_induction after
    (fun _ tokens => checkNames policy bindings tokens =
      checkNames policy bindings ((Postfix.variables (Token.leaves tokens)).map .identifier))
    rfl ?_ c tokens h
  intro c consumed rest next hstep ih
  cases hstep with
  | number value => exact ih
  | var name hrest =>
    have hvariables : Postfix.variables (Token.leaves ([.identifier name] ++ rest)) =
        name :: Postfix.variables (Token.leaves rest) := by
      rw [List.singleton_append, Token.leaves, Token.leavesFrom_var none hrest]
      rfl
    rw [hvariables, List.map_cons, checkNames_var (head?_map_identifier_ne _), ← ih]
    exact checkNames_var hrest
  | openParen => exact ih
  | openCall hname =>
    rw [← variables_leavesFrom (some _)] at ih
    exact (checkNames_openCall hname).trans ih
  | operate op => exact ih
  | comma hdepth => exact ih
  | closeStray => exact ih
  | closeParen => exact ih
  | closeCall hdepth => exact ih
  | closeEmpty => exact ih

/-- The check of the names of converted tokens depends on their postfix order alone. -/
theorem checkNames_of_ofTokens {tokens : List Token} {items : List Postfix}
    (h : Postfix.ofTokens tokens = .ok items) :
    checkNames policy bindings tokens =
      checkNames policy bindings ((Postfix.variables items).map .identifier) := by
  obtain ⟨c, hrun, -⟩ := bind_eq_ok_iff.mp h
  rw [checkNames_run hrun, ← Postfix.leaves_ofTokens h, variables_leaves]

end

end TradePlan
