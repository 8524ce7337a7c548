import TradePlan.Proofs.Infix

/-!
# Formulas with unbalanced parentheses

A closing parenthesis with nothing open is passed over, and what is open at the end is closed there.
So a formula means what it means with the missing parentheses written out, the opening ones in front
and the closing ones behind, and has the same faults:

    ofTokens (Token.balance tokens) = ofTokens tokens                        (ofTokens_balance)

Only a formula that ends right after the opening parenthesis of a call is different, since a call
that is closed at once has no arguments, while one that is left open has an empty argument.
-/

namespace TradePlan

/-! ## Missing parentheses -/

namespace Token

/-- How many parentheses are closed that are not open, with `opened` of them open in front. -/
def straysFrom : (opened : Nat) → List Token → Nat
  | _, [] => 0
  | opened, .leftParen :: rest => straysFrom (opened + 1) rest
  | opened, .rightParen :: rest =>
    if opened = 0 then straysFrom 0 rest + 1 else straysFrom (opened - 1) rest
  | opened, _ :: rest => straysFrom opened rest

/-- How many parentheses are open at the end, with `opened` of them open in front. -/
def unclosedFrom : (opened : Nat) → List Token → Nat
  | opened, [] => opened
  | opened, .leftParen :: rest => unclosedFrom (opened + 1) rest
  | opened, .rightParen :: rest => unclosedFrom (opened - 1) rest
  | opened, _ :: rest => unclosedFrom opened rest

/-- The tokens with an opening parenthesis in front for each one that is closed but not open, and a
closing one behind for each one that is left open. -/
def balance (tokens : List Token) : List Token :=
  List.replicate (straysFrom 0 tokens) .leftParen ++
    (tokens ++ List.replicate (unclosedFrom 0 tokens) .rightParen)

theorem isBalancedFrom_replicate_leftParen (opened count : Nat) (rest : List Token) :
    isBalancedFrom opened (List.replicate count .leftParen ++ rest) =
      isBalancedFrom (opened + count) rest := by
  induction count generalizing opened with
  | zero => rfl
  | succ count ih =>
    rw [List.replicate_succ, List.cons_append, isBalancedFrom, ih, Nat.add_right_comm]
    rfl

theorem isBalancedFrom_replicate_rightParen (opened : Nat) :
    isBalancedFrom opened (List.replicate opened .rightParen) = true := by
  induction opened with
  | zero => rfl
  | succ opened ih =>
    rw [List.replicate_succ, isBalancedFrom, Nat.add_sub_cancel, ih]
    simp

theorem isBalancedFrom_append_unclosed (opened : Nat) (tokens : List Token) :
    isBalancedFrom (opened + straysFrom opened tokens)
      (tokens ++ List.replicate (unclosedFrom opened tokens) .rightParen) = true := by
  induction tokens generalizing opened with
  | nil => exact isBalancedFrom_replicate_rightParen opened
  | cons token rest ih =>
    cases token with
    | leftParen =>
      rw [List.cons_append, isBalancedFrom, Nat.add_right_comm]
      exact ih (opened + 1)
    | rightParen =>
      have hrest := ih (opened - 1)
      rw [List.cons_append, isBalancedFrom, straysFrom, unclosedFrom]
      by_cases hopened : opened = 0
      · subst hopened
        rw [if_pos rfl, ← Nat.add_assoc, Nat.add_sub_cancel, hrest]
        rfl
      · rw [if_neg hopened, Nat.sub_add_comm (Nat.pos_of_ne_zero hopened), hrest]
        simp [hopened]
    | _ => exact ih opened

theorem isBalanced_balance (tokens : List Token) : isBalanced (balance tokens) = true := by
  rw [isBalanced, balance, isBalancedFrom_replicate_leftParen]
  exact isBalancedFrom_append_unclosed 0 tokens

end Token

namespace Postfix

open Conversion

/-! ## An opening parenthesis in front -/

namespace Conversion

def complete (c : Conversion) (tokens : List Token) : Except FormulaError (List Postfix) :=
  c.run tokens >>= fun after => finish after.output after.pending

/-- The conversion with a parenthesis below all that is pending. -/
def onParen (c : Conversion) : Conversion := ⟨c.output, c.pending ++ [.paren], c.opened⟩

theorem finish_onParen (output : Output) (pending : List Pending) :
    finish output (pending ++ [.paren]) = finish output pending := by
  induction pending generalizing output with
  | nil => rfl
  | cons top pending ih =>
    cases top with
    | operator op => exact ih _
    | paren => exact ih _
    | call function commas mark =>
      rw [List.cons_append, finish, finish, ih]

theorem release_onParen (output : Output) (condition : Operator → Bool) (pending : List Pending) :
    output.release condition (pending ++ [.paren]) =
      ((output.release condition pending).1, (output.release condition pending).2 ++ [.paren]) := by
  induction pending generalizing output with
  | nil => rfl
  | cons top pending ih =>
    cases top with
    | operator op =>
      rw [List.cons_append, Output.release, Output.release]
      split
      · exact ih _
      · rfl
    | paren => rfl
    | call function commas mark => rfl

theorem operate_onParen (c : Conversion) (op : Operator) :
    c.onParen.operate op = (c.operate op).onParen := by
  rw [operate, operate, onParen, release_onParen]
  rfl

theorem comma_onParen (c : Conversion) : c.onParen.comma = c.comma.map onParen := by
  rw [comma, comma, onParen, release_onParen]
  obtain ⟨output, pending⟩ := c.output.release (fun _ => true) c.pending
  cases pending with
  | nil => rfl
  | cons top pending =>
    cases top with
    | operator op => rfl
    | paren => rfl
    | call function commas mark =>
      show (output.checkArgument function mark >>= _) = (output.checkArgument function mark >>= _).map _
      cases output.checkArgument function mark <;> rfl

/-- A closing parenthesis that closes nothing else closes the one below. -/
theorem close_onParen (c : Conversion) :
    c.onParen.close = c.close ∨ c.onParen.close = c.close.map onParen := by
  rw [close, close, onParen, release_onParen]
  obtain ⟨output, pending⟩ := c.output.release (fun _ => true) c.pending
  cases pending with
  | nil => exact .inl rfl
  | cons top pending =>
    cases top with
    | operator op => exact .inr rfl
    | paren => exact .inr rfl
    | call function commas mark =>
      refine .inr ?_
      show (if c.opened = true then _ else (output.checkArgument function mark >>= _)) =
        (if c.opened = true then _ else (output.checkArgument function mark >>= _)).map _
      split
      · rfl
      · cases output.checkArgument function mark <;> rfl

/-- A parenthesis below changes nothing: it is closed in place of nothing, or at the end. -/
theorem complete_onParen (c : Conversion) (tokens : List Token) :
    c.onParen.complete tokens = c.complete tokens := by
  rw [complete, complete]
  fun_induction run c tokens with
  | case1 c => exact finish_onParen _ _
  | case2 c name rest hname ih =>
    rw [run, if_pos hname]
    exact ih
  | case3 c name rest hname =>
    rw [run, if_neg hname]
  | case4 c name rest hrest ih =>
    rw [run.eq_3 _ _ _ hrest]
    exact ih
  | case5 c value rest ih => exact ih
  | case6 c op rest ih =>
    rw [run, operate_onParen]
    exact ih
  | case7 c rest ih => exact ih
  | case8 c rest ih =>
    rw [run, comma_onParen]
    cases hcomma : c.comma with
    | error fault => rfl
    | ok next => exact ih next
  | case9 c rest ih =>
    rw [run]
    cases hclose : c.close with
    | error fault =>
      rcases close_onParen c with h | h
      · rw [h, hclose]
      · rw [h, hclose]
        rfl
    | ok next =>
      rcases close_onParen c with h | h
      · rw [h, hclose]
      · rw [h, hclose]
        exact ih next

end Conversion

/-- Before the first token it does not matter whether the parenthesis has just been opened. -/
theorem complete_openParen (tokens : List Token) :
    start.openParen.complete tokens = start.onParen.complete tokens := by
  match tokens with
  | [] => rfl
  | .identifier name :: [] => rfl
  | .identifier name :: token :: rest => cases token <;> rfl
  | .number value :: rest => rfl
  | .operator op :: rest => rfl
  | .leftParen :: rest => rfl
  | .rightParen :: rest => rfl
  | .comma :: rest => rfl

/-- **An opening parenthesis in front changes nothing.** -/
theorem ofTokens_leftParen (tokens : List Token) : ofTokens (.leftParen :: tokens) = ofTokens tokens :=
  (complete_openParen tokens).trans (complete_onParen start tokens)

theorem ofTokens_replicate_leftParen (count : Nat) (tokens : List Token) :
    ofTokens (List.replicate count .leftParen ++ tokens) = ofTokens tokens := by
  induction count with
  | zero => rfl
  | succ count ih => rw [List.replicate_succ, List.cons_append, ofTokens_leftParen, ih]

/-! ## Closing parentheses behind -/

namespace Conversion

theorem opensTop_of_not_opened (output : Output) (pending : List Pending) :
    (⟨output, pending, false⟩ : Conversion).OpensTop := by
  intro hopened
  cases hopened

theorem complete_rightParen (c : Conversion) (rest : List Token) :
    c.complete (.rightParen :: rest) = c.close >>= fun next => next.complete rest := by
  rw [complete, run]
  cases c.close <;> rfl

/-- Closing all that is open is what the end of the tokens does. -/
theorem complete_close_all {c : Conversion} (htop : c.OpensTop) (hopened : c.openedCall? = none) :
    c.complete (List.replicate (brackets c.pending).length .rightParen) =
      finish c.output c.pending := by
  generalize hcount : (brackets c.pending).length = count
  induction count generalizing c with
  | zero => rfl
  | succ count ih =>
    obtain ⟨output, pending, opened⟩ := c
    obtain ⟨ops, top, below, rfl, htopmost⟩ :=
      exists_bracket (List.ne_nil_of_length_pos (by rw [hcount]; exact Nat.succ_pos count))
    have hbelow := @brackets_length_closed ops top below htopmost
    have hrest : (brackets below).length = count := Nat.succ.inj (hbelow.trans hcount)
    rw [List.replicate_succ, complete_rightParen, finish_waiting]
    cases top with
    | operator op => cases htopmost
    | paren =>
      rw [close_paren, ok_bind]
      exact ih (opensTop_of_not_opened _ _) openedCall?_of_not_opened hrest
    | call function commas mark =>
      -- a call that has just been opened would be on top
      obtain rfl : opened = false := by
        rw [← Bool.not_eq_true]
        rintro rfl
        cases ops with
        | nil => cases hopened
        | cons op ops => exact htop rfl op _ rfl
      rw [close_call, finish]
      cases (output.extend (ops.map .operator)).checkArgument function mark with
      | error fault => rfl
      | ok _ => exact ih (opensTop_of_not_opened _ _) openedCall?_of_not_opened hrest

section

variable {c after : Conversion} {tokens : List Token}

theorem opensTop_run (h : run c tokens = .ok after) : c.OpensTop → after.OpensTop :=
  @run_induction after (fun c _ => c.OpensTop → after.OpensTop) id
    (fun _ _ _ _ hstep ih _ => ih hstep.opensTop) c tokens h

theorem Step.openedCall? {next : Conversion} {consumed rest : List Token}
    (h : Step c consumed rest next) {function : String} (hopened : next.openedCall? = some function) :
    consumed = [.identifier function, .leftParen] := by
  cases h with
  | @openCall _ _ other hname =>
    obtain rfl : other = function := Option.some.inj hopened
    rfl
  | openParen => cases hopened
  | operate op =>
    obtain ⟨ops, pending, -, heq⟩ := operate_eq c op
    rw [heq, openedCall?_of_not_opened] at hopened
    cases hopened
  | number value => cases openedCall?_of_not_opened.symm.trans hopened
  | var name hrest => cases openedCall?_of_not_opened.symm.trans hopened
  | comma hdepth => cases openedCall?_of_not_opened.symm.trans hopened
  | closeStray => cases openedCall?_of_not_opened.symm.trans hopened
  | closeParen => cases openedCall?_of_not_opened.symm.trans hopened
  | closeCall hdepth => cases openedCall?_of_not_opened.symm.trans hopened
  | closeEmpty => cases openedCall?_of_not_opened.symm.trans hopened

/-- After a run a call has just been opened only if the tokens end there. -/
theorem openedCall?_run (h : run c tokens = .ok after) {function : String}
    (hopened : after.openedCall? = some function) :
    tokens = [] ∧ c.openedCall? = some function ∨
      [.identifier function, .leftParen] <:+ tokens := by
  refine @run_induction after (fun c tokens => tokens = [] ∧ c.openedCall? = some function ∨
    [.identifier function, .leftParen] <:+ tokens) (.inl ⟨rfl, hopened⟩) ?_ c tokens h
  rintro c consumed rest next hstep (⟨rfl, hnext⟩ | hrest)
  · rw [hstep.openedCall? hnext, List.append_nil]
    exact .inr (List.suffix_refl _)
  · exact .inr (hrest.trans (List.suffix_append consumed rest))

/-- The brackets that are open after a run are those that the tokens leave open. -/
theorem length_brackets_run (h : run c tokens = .ok after) :
    (brackets after.pending).length = Token.unclosedFrom (brackets c.pending).length tokens := by
  refine @run_induction after (fun c tokens => (brackets after.pending).length =
    Token.unclosedFrom (brackets c.pending).length tokens) rfl ?_ c tokens h
  intro c consumed rest next hstep ih
  rw [ih]
  cases hstep with
  | operate op =>
    obtain ⟨ops, pending, hpending, hoperate⟩ := operate_eq c op
    rw [hoperate, hpending, brackets_waiting_append]
    rfl
  | closeStray =>
    rw [brackets_waiting]
    rfl
  | comma hdepth =>
    rw [brackets_waiting_append]
    rfl
  | closeParen =>
    rw [brackets_waiting_append]
    rfl
  | closeCall hdepth =>
    rw [brackets_waiting_append]
    rfl
  | closeEmpty =>
    rw [brackets_waiting_append]
    rfl
  | _ => rfl

end

end Conversion

theorem ofTokens_append_unclosed {tokens : List Token}
    (h : ∀ name, ¬ [.identifier name, .leftParen] <:+ tokens) :
    ofTokens (tokens ++ List.replicate (Token.unclosedFrom 0 tokens) .rightParen) =
      ofTokens tokens := by
  have hhead : (List.replicate (Token.unclosedFrom 0 tokens) Token.rightParen).head? ≠
      some .leftParen := by
    intro heq
    cases List.eq_of_mem_replicate (List.mem_of_head? heq)
  rw [ofTokens, ofTokens, run_append hhead]
  cases hrun : start.run tokens with
  | error fault => rfl
  | ok c =>
    have hopened : c.openedCall? = none := by
      rw [Option.eq_none_iff_forall_ne_some]
      intro function hfunction
      rcases openedCall?_run hrun hfunction with ⟨-, hstart⟩ | hend
      · cases hstart
      · exact h function hend
    have hclose := complete_close_all (opensTop_run hrun (opensTop_of_not_opened _ _)) hopened
    rw [length_brackets_run hrun] at hclose
    exact hclose

/-- Left open, the call `max(` lacks its argument; closed at once, it has none. -/
example :
    ofTokens [.identifier "max", .leftParen] = .error (.malformed (.missingValue "max")) ∧
    ofTokens [.identifier "max", .leftParen, .rightParen] = .ok [.call "max" 0] := ⟨rfl, rfl⟩

end Postfix

/-! ## Top theorem -/

/-- **Unbalanced parentheses mean the balanced formula.**  Tokens with the missing parentheses
written out are balanced, and unless they end right after the opening parenthesis of a call they have
the same postfix order, or the same fault. -/
theorem ofTokens_balance (tokens : List Token) :
    Token.isBalanced (Token.balance tokens) = true ∧
    ((∀ name, ¬ [.identifier name, .leftParen] <:+ tokens) →
      Postfix.ofTokens (Token.balance tokens) = Postfix.ofTokens tokens) := by
  refine ⟨Token.isBalanced_balance tokens, fun h => ?_⟩
  rw [Token.balance, Postfix.ofTokens_replicate_leftParen, Postfix.ofTokens_append_unclosed h]

/-- The formula `1 + 2) * max(3, (low` closes a parenthesis too many and leaves two open. -/
theorem ofTokens_balance_stray_and_open :
    let tokens := [.number 1, .operator .add, .number 2, .rightParen, .operator .mul,
      .identifier "max", .leftParen, .number 3, .comma, .leftParen, .identifier "low"]
    let balanced := [.leftParen, .number 1, .operator .add, .number 2, .rightParen, .operator .mul,
      .identifier "max", .leftParen, .number 3, .comma, .leftParen, .identifier "low",
      .rightParen, .rightParen]
    (∀ name, ¬ [.identifier name, .leftParen] <:+ tokens) ∧
    Token.balance tokens = balanced ∧
    Token.isBalanced balanced = true ∧
    Postfix.ofTokens balanced = Postfix.ofTokens tokens := by
  intro tokens balanced
  have h : ∀ name, ¬ [.identifier name, .leftParen] <:+ tokens := by
    intro name hsuffix
    cases hsuffix.getLast (by simp)
  exact ⟨h, rfl, (ofTokens_balance tokens).1, (ofTokens_balance tokens).2 h⟩

end TradePlan
