import Mathlib.Data.List.TakeWhile
import TradePlan.Proofs.Outcome
import TradePlan.Formula.Postfix

/-!
# Steps of the conversion to postfix order

What one token does to a conversion whose pending operators are known: an operator, a comma or a
closing bracket moves the waiting operators to the output, in the order in which they wait, and
`Output.extend` says which items the output has gained.
-/

namespace TradePlan.Postfix

/-! ## Outputs -/

namespace Output

def extend (output : Output) (items : List Postfix) : Output := items.foldl push output

theorem extend_nil (output : Output) : output.extend [] = output := rfl

theorem extend_cons (output : Output) (item : Postfix) (items : List Postfix) :
    output.extend (item :: items) = (output.push item).extend items := rfl

theorem extend_append (output : Output) (items others : List Postfix) :
    output.extend (items ++ others) = (output.extend items).extend others := List.foldl_append

theorem extend_singleton (output : Output) (item : Postfix) :
    output.extend [item] = output.push item := rfl

theorem extend_concat (output : Output) (items : List Postfix) (item : Postfix) :
    output.extend (items ++ [item]) = (output.extend items).push item := by
  rw [extend_append, extend_singleton]

theorem depth_extend (output : Output) (items : List Postfix) :
    (output.extend items).depth = output.depth + height items := by
  induction items generalizing output with
  | nil => simp [extend_nil, height]
  | cons item items ih =>
    rw [extend_cons, ih, height]
    simp only [push]
    omega

theorem items_extend (output : Output) (items : List Postfix) :
    (output.extend items).items = items.reverse ++ output.items := by
  induction items generalizing output with
  | nil => rfl
  | cons item items ih =>
    rw [extend_cons, ih]
    simp [push]

theorem checkArgument_eq_ok_iff {output : Output} {function : String} {mark : Int} :
    output.checkArgument function mark = .ok () ↔ output.depth - mark = 1 := by
  simp only [checkArgument]
  constructor
  · intro h
    split at h
    · assumption
    · split at h <;> cases h
  · intro h
    rw [if_pos h]

end Output

/-! ## Waiting operators -/

/-- Operators as pending ones, the one on top first. -/
def waiting (ops : List Operator) : List Pending := ops.map .operator

theorem waiting_append (ops others : List Operator) :
    waiting (ops ++ others) = waiting ops ++ waiting others := List.map_append

/-- Whether what is pending has no operator on top that satisfies a condition. -/
def Holds (condition : Operator → Bool) (pending : List Pending) : Prop :=
  ∀ op rest, pending = .operator op :: rest → condition op = false

theorem holds_nil (condition : Operator → Bool) : Holds condition [] := by
  intro op rest h
  cases h

theorem holds_paren (condition : Operator → Bool) (pending : List Pending) :
    Holds condition (.paren :: pending) := by
  intro op rest h
  cases h

theorem holds_call (condition : Operator → Bool) (function : String) (commas : Nat) (mark : Int)
    (pending : List Pending) : Holds condition (.call function commas mark :: pending) := by
  intro op rest h
  cases h

theorem release_of_holds {output : Output} {condition : Operator → Bool} {pending : List Pending}
    (h : Holds condition pending) : output.release condition pending = (output, pending) := by
  match pending with
  | [] => rfl
  | .paren :: _ => rfl
  | .call .. :: _ => rfl
  | .operator op :: rest =>
    rw [Output.release, h op rest rfl]
    rfl

/-- The operators on top that satisfy the condition go to the output, in the order in which they
wait. -/
theorem release_waiting {condition : Operator → Bool} {pending : List Pending}
    (h : Holds condition pending) (output : Output) (ops : List Operator) :
    output.release condition (waiting ops ++ pending) =
      (output.extend ((ops.takeWhile condition).map .operator),
        waiting (ops.dropWhile condition) ++ pending) := by
  induction ops generalizing output with
  | nil => exact release_of_holds h
  | cons op ops ih =>
    show output.release condition (.operator op :: (waiting ops ++ pending)) = _
    rw [Output.release]
    by_cases hop : condition op = true
    · rw [if_pos hop, ih, List.takeWhile_cons_of_pos hop, List.dropWhile_cons_of_pos hop]
      rfl
    · rw [if_neg hop, List.takeWhile_cons_of_neg hop, List.dropWhile_cons_of_neg hop]
      rfl

/-- Without a condition, all that wait go. -/
theorem release_all {pending : List Pending} (h : Holds (fun _ => true) pending) (output : Output)
    (ops : List Operator) :
    output.release (fun _ => true) (waiting ops ++ pending) =
      (output.extend (ops.map .operator), pending) := by
  have htake : ops.takeWhile (fun _ => true) = ops := List.takeWhile_eq_self_iff.mpr (by simp)
  have hdrop : ops.dropWhile (fun _ => true) = [] := List.dropWhile_eq_nil_iff.mpr (by simp)
  rw [release_waiting h, htake, hdrop]
  rfl

/-! ## Steps -/

namespace Conversion

variable {output : Output} {ops : List Operator} {pending : List Pending} {opened : Bool}

/-- Whether an operator is to come before one that binds as strongly as `level`. -/
def isTighter (level : Nat) (op : Operator) : Bool := decide (level ≤ op.precedence)

theorem operate_waiting {op : Operator} (h : Holds (isTighter op.precedence) pending) :
    operate ⟨output, waiting ops ++ pending, opened⟩ op =
      ⟨output.extend ((ops.takeWhile (isTighter op.precedence)).map .operator),
        .operator op :: (waiting (ops.dropWhile (isTighter op.precedence)) ++ pending), false⟩ := by
  show (⟨(output.release (isTighter op.precedence) (waiting ops ++ pending)).1,
    .operator op :: (output.release (isTighter op.precedence) (waiting ops ++ pending)).2,
    false⟩ : Conversion) = _
  rw [release_waiting h]

theorem close_paren :
    close ⟨output, waiting ops ++ .paren :: pending, opened⟩ =
      .ok ⟨output.extend (ops.map .operator), pending, false⟩ := by
  simp only [close, release_all (holds_paren _ pending)]
  rfl

theorem close_stray :
    close ⟨output, waiting ops, opened⟩ = .ok ⟨output.extend (ops.map .operator), [], false⟩ := by
  have hrelease := release_all (holds_nil _) output ops
  rw [List.append_nil] at hrelease
  simp only [close, hrelease]
  rfl

theorem close_call {function : String} {commas : Nat} {mark : Int} :
    close ⟨output, waiting ops ++ .call function commas mark :: pending, false⟩ =
      (output.extend (ops.map .operator)).checkArgument function mark >>= fun _ =>
        .ok ⟨(output.extend (ops.map .operator)).push (.call function (commas + 1)), pending, false⟩ := by
  simp only [close, release_all (holds_call _ function commas mark pending)]
  rfl

theorem close_empty {function : String} {commas : Nat} {mark : Int} :
    close ⟨output, waiting ops ++ .call function commas mark :: pending, true⟩ =
      .ok ⟨(output.extend (ops.map .operator)).push (.call function 0), pending, false⟩ := by
  simp only [close, release_all (holds_call _ function commas mark pending)]
  rfl

theorem comma_call {function : String} {commas : Nat} {mark : Int} :
    comma ⟨output, waiting ops ++ .call function commas mark :: pending, opened⟩ =
      (output.extend (ops.map .operator)).checkArgument function mark >>= fun _ =>
        .ok ⟨output.extend (ops.map .operator),
          .call function (commas + 1) (output.extend (ops.map .operator)).depth :: pending, false⟩ := by
  simp only [comma, release_all (holds_call _ function commas mark pending)]
  rfl

/-- A name that no parenthesis follows is a variable. -/
theorem run_var {c : Conversion} {name : String} {rest : List Token}
    (h : rest.head? ≠ some .leftParen) :
    c.run (.identifier name :: rest) = (c.operand (.var name)).run rest := by
  cases rest with
  | nil => rfl
  | cons token rest =>
    cases token with
    | leftParen => exact absurd rfl h
    | _ => rfl

/-- A run takes tokens up where an earlier one stopped, unless the name of a call is parted from its
parenthesis. -/
theorem run_append {c : Conversion} {tokens rest : List Token} (h : rest.head? ≠ some .leftParen) :
    c.run (tokens ++ rest) = c.run tokens >>= fun next => next.run rest := by
  fun_induction run c tokens with
  | case1 c => rfl
  | case2 c name tokens hname ih =>
    rw [List.cons_append, List.cons_append, run, if_pos hname]
    exact ih
  | case3 c name tokens hname =>
    rw [List.cons_append, List.cons_append, run, if_neg hname]
    rfl
  | case4 c name tokens htokens ih =>
    rw [List.cons_append, run_var ?_]
    · exact ih
    · cases tokens with
      | nil => exact h
      | cons token tokens =>
        intro heq
        obtain rfl : token = .leftParen := Option.some.inj heq
        exact htokens tokens rfl
  | case5 c value tokens ih => exact ih
  | case6 c op tokens ih => exact ih
  | case7 c tokens ih => exact ih
  | case8 c tokens ih =>
    rw [List.cons_append, run]
    cases c.comma with
    | error fault => rfl
    | ok next => exact ih next
  | case9 c tokens ih =>
    rw [List.cons_append, run]
    cases c.close with
    | error fault => rfl
    | ok next => exact ih next

theorem finish_waiting (output : Output) (ops : List Operator) (pending : List Pending) :
    finish output (waiting ops ++ pending) = finish (output.extend (ops.map .operator)) pending := by
  induction ops generalizing output with
  | nil => rfl
  | cons op ops ih => exact ih _

theorem finish_operators (output : Output) (ops : List Operator) :
    finish output (waiting ops) = .ok (output.extend (ops.map .operator)).items.reverse := by
  have h := finish_waiting output ops []
  rwa [List.append_nil] at h

end Conversion

end TradePlan.Postfix
