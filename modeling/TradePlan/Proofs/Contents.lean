import TradePlan.Proofs.Leaves

/-!
# What the postfix order contains

The conversion to postfix order loses, repeats and invents nothing, whatever the order of the tokens
and however their brackets match.  Each number, variable and operator gives one item, and so does
each name in front of an opening parenthesis: a call with the arguments that its commas separate.

    ofTokens tokens = .ok items → items.Perm (Token.items tokens)             (perm_ofTokens)

What a conversion has put out, what it has pending and what the tokens ahead write are together the
same items before and after each step.
-/

namespace TradePlan

/-! ## Items that tokens write -/

namespace Token

/-- The commas directly inside a bracket, up to where it is closed or to the end, where `depth` more
brackets are open inside it. -/
def commasFrom : (depth : Nat) → List Token → Nat
  | _, [] => 0
  | depth, .leftParen :: rest => commasFrom (depth + 1) rest
  | 0, .rightParen :: _ => 0
  | depth + 1, .rightParen :: rest => commasFrom depth rest
  | 0, .comma :: rest => commasFrom 0 rest + 1
  | depth, _ :: rest => commasFrom depth rest

/-- The count of arguments of a call, by the tokens after its opening parenthesis: none if it is
closed at once, and otherwise one more than its commas. -/
def argumentCount : List Token → Nat
  | .rightParen :: _ => 0
  | rest => commasFrom 0 rest + 1

/-- The names in front of an opening parenthesis, with the count of their arguments. -/
def openedCalls : List Token → List (String × Nat)
  | [] => []
  | .identifier name :: .leftParen :: rest => (name, argumentCount rest) :: openedCalls rest
  | _ :: rest => openedCalls rest

/-- The numbers, and the names that no opening parenthesis follows. -/
def operandTokens : List Token → List Token
  | [] => []
  | .number value :: rest => .number value :: operandTokens rest
  | .identifier _ :: .leftParen :: rest => operandTokens rest
  | .identifier name :: rest => .identifier name :: operandTokens rest
  | _ :: rest => operandTokens rest

def items : List Token → List Postfix
  | [] => []
  | .number value :: rest => .number value :: items rest
  | .identifier name :: .leftParen :: rest => .call name (argumentCount rest) :: items rest
  | .identifier name :: rest => .var name :: items rest
  | .operator op :: rest => .operator op :: items rest
  | _ :: rest => items rest

theorem items_var {name : String} {rest : List Token} (h : rest.head? ≠ some .leftParen) :
    items (.identifier name :: rest) = .var name :: items rest := by
  cases rest with
  | nil => rfl
  | cons token rest =>
    cases token with
    | leftParen => exact absurd rfl h
    | _ => rfl

theorem argumentCount_eq {tokens : List Token} (h : tokens.head? ≠ some .rightParen) :
    argumentCount tokens = commasFrom 0 tokens + 1 := by
  cases tokens with
  | nil => rfl
  | cons token rest =>
    cases token with
    | rightParen => exact absurd rfl h
    | _ => rfl

end Token

/-- A call with the count of its arguments. -/
def Postfix.call? : Postfix → Option (String × Nat)
  | .call function argc => some (function, argc)
  | _ => none

/-! ### Kinds of items -/

theorem token?_leaves (items : List Postfix) :
    (Postfix.leaves items).filterMap Postfix.token? = items.filterMap Postfix.token? := by
  rw [Postfix.leaves, List.filterMap_filter]
  refine congrArg (items.filterMap ·) (funext fun item => ?_)
  cases item with
  | call function argc => exact ite_self none
  | _ => rfl

theorem token?_leavesFrom (opened : Option String) (tokens : List Token) :
    (Token.leavesFrom opened tokens).filterMap Postfix.token? = Token.operandTokens tokens := by
  fun_induction Token.leavesFrom opened tokens with
  | case1 => rfl
  | case2 opened value rest ih => exact congrArg (.number value :: ·) ih
  | case3 opened name rest ih => exact ih
  | case4 opened name rest hrest ih =>
    rw [Token.operandTokens.eq_4 _ _ hrest, ← ih]
    rfl
  | case5 opened rest ih =>
    rw [List.filterMap_append, ih]
    cases opened <;> rfl
  | case6 opened token rest hnumber _ hname _ ih =>
    cases token with
    | number value => exact absurd rfl (hnumber value)
    | identifier name => exact absurd rfl (hname name)
    | _ => exact ih

theorem count_items (op : Operator) (tokens : List Token) :
    (Token.items tokens).count (.operator op) = tokens.count (.operator op) := by
  fun_induction Token.items tokens with
  | case1 => rfl
  | case2 value rest ih => simpa using ih
  | case3 name rest ih => simpa using ih
  | case4 name rest hrest ih => simpa using ih
  | case5 other rest ih => simp [List.count_cons, ih]
  | case6 token rest _ _ _ hoperator ih =>
    rw [ih, List.count_cons_of_ne (hoperator op)]

theorem call?_items (tokens : List Token) :
    (Token.items tokens).filterMap Postfix.call? = Token.openedCalls tokens := by
  fun_induction Token.items tokens with
  | case1 => rfl
  | case2 value rest ih => exact ih
  | case3 name rest ih => exact congrArg ((name, _) :: ·) ih
  | case4 name rest hrest ih =>
    rw [Token.openedCalls.eq_3 _ _ fun _ tail _ => hrest tail, ← ih]
    rfl
  | case5 other rest ih => exact ih
  | case6 token rest _ _ hname _ ih =>
    cases token with
    | identifier name => exact absurd rfl (hname name)
    | _ => exact ih

/-! ## Items to come -/

namespace Postfix

open Conversion

/-- The items that pending operators and calls are still to give in front of tokens, where `depth`
brackets are open inside the innermost of them. -/
def Pending.awaitedFrom (tokens : List Token) : (depth : Nat) → List Pending → List Postfix
  | _, [] => []
  | depth, .operator op :: pending => .operator op :: awaitedFrom tokens depth pending
  | depth, .paren :: pending => awaitedFrom tokens (depth + 1) pending
  | depth, .call function commas _ :: pending =>
    .call function (commas + Token.commasFrom depth tokens + 1) ::
      awaitedFrom tokens (depth + 1) pending

/-- The items that a conversion is still to give for what is pending, in front of tokens.  A call
that has just been opened and is closed at once has no arguments. -/
def Conversion.awaited (c : Conversion) (tokens : List Token) : List Postfix :=
  match c.openedCall?, tokens with
  | some function, .rightParen :: _ =>
    .call function 0 :: Pending.awaitedFrom tokens 1 c.pending.tail
  | _, _ => Pending.awaitedFrom tokens 0 c.pending

theorem awaitedFrom_waiting (tokens : List Token) (depth : Nat) (ops : List Operator)
    (pending : List Pending) :
    Pending.awaitedFrom tokens depth (waiting ops ++ pending) =
      ops.map .operator ++ Pending.awaitedFrom tokens depth pending := by
  induction ops with
  | nil => rfl
  | cons op ops ih => exact congrArg (.operator op :: ·) ih

/-- What is awaited depends on the tokens through their commas. -/
theorem awaitedFrom_congr {tokens others : List Token} {low high : Nat}
    (h : ∀ depth, Token.commasFrom (depth + low) tokens = Token.commasFrom (depth + high) others)
    (depth : Nat) (pending : List Pending) :
    Pending.awaitedFrom tokens (depth + low) pending =
      Pending.awaitedFrom others (depth + high) pending := by
  induction pending generalizing depth with
  | nil => rfl
  | cons top pending ih =>
    have hdeeper := ih (depth + 1)
    rw [Nat.add_right_comm depth 1 low, Nat.add_right_comm depth 1 high] at hdeeper
    cases top with
    | operator op => exact congrArg (.operator op :: ·) (ih depth)
    | paren => exact hdeeper
    | call function commas mark =>
      rw [Pending.awaitedFrom, Pending.awaitedFrom, h depth, hdeeper]

section

variable {c : Conversion} {tokens rest : List Token}

theorem awaited_of_head? (h : tokens.head? ≠ some .rightParen) :
    c.awaited tokens = Pending.awaitedFrom tokens 0 c.pending := by
  rw [awaited]
  rintro function tail - rfl
  exact h rfl

theorem awaited_of_openedCall? (h : c.openedCall? = none) :
    c.awaited tokens = Pending.awaitedFrom tokens 0 c.pending := by
  rw [awaited]
  intro function tail hopened
  rw [h] at hopened
  cases hopened

theorem awaited_of_not_opened {output : Output} {pending : List Pending} :
    (⟨output, pending, false⟩ : Conversion).awaited tokens =
      Pending.awaitedFrom tokens 0 pending :=
  awaited_of_openedCall? openedCall?_of_not_opened

theorem awaited_openParen :
    c.openParen.awaited tokens = Pending.awaitedFrom tokens 1 c.pending := rfl

theorem awaited_openCall (function : String) :
    (c.openCall function).awaited tokens =
      .call function (Token.argumentCount tokens) :: Pending.awaitedFrom tokens 1 c.pending := by
  by_cases h : tokens.head? = some .rightParen
  · obtain ⟨rest, rfl⟩ := List.head?_eq_some_iff.mp h
    rfl
  · rw [awaited_of_head? h, Token.argumentCount_eq h]
    show Postfix.call function (0 + _ + 1) :: _ = _
    rw [Nat.zero_add]

/-! ## Steps and runs -/

/-- Everything that a conversion has put out and that it and the tokens ahead are still to give. -/
def Conversion.account (c : Conversion) (tokens : List Token) : List Postfix :=
  c.output.items ++ (c.awaited tokens ++ Token.items tokens)

/-- Items that go to the output stay in the account. -/
theorem perm_extend (output : Output) (added others : List Postfix) :
    (output.items ++ (added ++ others)).Perm ((output.extend added).items ++ others) := by
  rw [Output.items_extend, ← List.append_assoc]
  refine List.Perm.append_right others ?_
  exact List.perm_append_comm.trans (added.reverse_perm.symm.append_right _)

theorem perm_push (output : Output) (item : Postfix) (front back : List Postfix) :
    (output.items ++ (front ++ item :: back)).Perm ((output.push item).items ++ (front ++ back)) :=
  (List.perm_middle.append_left _).trans (perm_extend output [item] (front ++ back))

/-- A token that is no bracket and no comma leaves what is awaited as it is. -/
theorem awaited_cons {token : Token}
    (h : ∀ depth, Token.commasFrom depth (token :: rest) = Token.commasFrom depth rest)
    (hne : token ≠ .rightParen) :
    c.awaited (token :: rest) = Pending.awaitedFrom rest 0 c.pending := by
  rw [awaited_of_head? (by simpa using hne)]
  exact @awaitedFrom_congr _ _ 0 0 h 0 _

theorem commasFrom_number (value : Float) (depth : Nat) :
    Token.commasFrom depth (.number value :: rest) = Token.commasFrom depth rest := by
  cases depth <;> rfl

theorem commasFrom_identifier (name : String) (depth : Nat) :
    Token.commasFrom depth (.identifier name :: rest) = Token.commasFrom depth rest := by
  cases depth <;> rfl

theorem commasFrom_operator (op : Operator) (depth : Nat) :
    Token.commasFrom depth (.operator op :: rest) = Token.commasFrom depth rest := by
  cases depth <;> rfl

/-- **A step keeps the account.** -/
theorem Conversion.Step.perm_account {next : Conversion} {consumed : List Token}
    (h : Step c consumed rest next) (htop : c.OpensTop) :
    (c.account (consumed ++ rest)).Perm (next.account rest) := by
  cases h with
  | number value =>
    rw [account, account, List.singleton_append, awaited_cons (commasFrom_number value) (by simp),
      operand, awaited_of_not_opened]
    exact perm_push _ _ _ _
  | var name hrest =>
    rw [account, account, List.singleton_append,
      awaited_cons (commasFrom_identifier name) (by simp), Token.items_var hrest, operand,
      awaited_of_not_opened]
    exact perm_push _ _ _ _
  | openParen =>
    rw [account, account, List.singleton_append, awaited_of_head? (by simp), awaited_openParen,
      @awaitedFrom_congr (.leftParen :: rest) rest 0 1 (fun _ => rfl) 0]
    exact .refl _
  | @openCall _ _ function hname =>
    have hcommas : ∀ depth, Token.commasFrom depth (.identifier function :: .leftParen :: rest) =
        Token.commasFrom (depth + 1) rest := fun depth => commasFrom_identifier function depth
    rw [account, account, List.cons_append, List.singleton_append, awaited_of_head? (by simp),
      @awaitedFrom_congr _ rest 0 1 hcommas 0, awaited_openCall]
    exact List.perm_middle.append_left _
  | operate op =>
    obtain ⟨ops, pending, hpending, heq⟩ := operate_eq c op
    rw [account, account, List.singleton_append, awaited_cons (commasFrom_operator op) (by simp),
      hpending, awaitedFrom_waiting, heq, awaited_of_not_opened, List.append_assoc]
    refine (perm_extend _ _ _).trans (List.Perm.append_left _ ?_)
    exact List.perm_middle
  | @comma output ops function commas mark pending opened _ hdepth =>
    have hoperators := awaitedFrom_waiting (.comma :: rest) 0 ops
      (.call function commas mark :: pending)
    have hcount : commas + Token.commasFrom 0 (.comma :: rest) + 1 =
        commas + 1 + Token.commasFrom 0 rest + 1 := by
      rw [Token.commasFrom]
      omega
    rw [account, account, List.singleton_append, awaited_of_head? (by simp), hoperators,
      awaited_of_not_opened, Pending.awaitedFrom, Pending.awaitedFrom, hcount,
      @awaitedFrom_congr (.comma :: rest) rest 1 1 (fun _ => rfl) 0, List.append_assoc]
    exact perm_extend _ _ _
  | @closeStray output ops opened _ =>
    have hopened : (⟨output, waiting ops, opened⟩ : Conversion).openedCall? = none := by
      cases ops <;> rfl
    have hoperators := awaitedFrom_waiting (.rightParen :: rest) 0 ops []
    rw [List.append_nil] at hoperators
    rw [account, account, List.singleton_append, awaited_of_openedCall? hopened, hoperators,
      awaited_of_not_opened, List.append_assoc]
    exact perm_extend _ _ _
  | @closeParen output ops pending opened _ =>
    have hopened : (⟨output, waiting ops ++ .paren :: pending, opened⟩ : Conversion).openedCall? =
        none := by
      cases ops <;> rfl
    have hoperators := awaitedFrom_waiting (.rightParen :: rest) 0 ops (.paren :: pending)
    rw [account, account, List.singleton_append, awaited_of_openedCall? hopened, hoperators,
      awaited_of_not_opened, Pending.awaitedFrom,
      @awaitedFrom_congr (.rightParen :: rest) rest 1 0 (fun _ => rfl) 0, List.append_assoc]
    exact perm_extend _ _ _
  | @closeCall output ops function commas mark pending _ hdepth =>
    have hoperators := awaitedFrom_waiting (.rightParen :: rest) 0 ops
      (.call function commas mark :: pending)
    rw [account, account, List.singleton_append, awaited_of_not_opened, hoperators,
      awaited_of_not_opened, Pending.awaitedFrom,
      @awaitedFrom_congr (.rightParen :: rest) rest 1 0 (fun _ => rfl) 0, List.append_assoc]
    exact (perm_extend _ _ _).trans (perm_push _ _ [] _)
  | @closeEmpty output ops function commas mark pending _ =>
    obtain rfl : ops = [] := by
      cases ops with
      | nil => rfl
      | cons op ops => exact absurd rfl (htop rfl op _)
    have hempty : (⟨output, .call function commas mark :: pending, true⟩ : Conversion).awaited
        (.rightParen :: rest) =
          .call function 0 :: Pending.awaitedFrom (.rightParen :: rest) 1 pending := rfl
    have hpending := @awaitedFrom_congr (.rightParen :: rest) rest 1 0 (fun _ => rfl) 0 pending
    rw [Nat.zero_add] at hpending
    rw [account, account, List.singleton_append, awaited_of_not_opened, ← hpending]
    exact perm_push _ _ [] _

/-- **A run keeps the account.** -/
theorem perm_account_run {after : Conversion} (h : run c tokens = .ok after) :
    c.OpensTop → (c.account tokens).Perm (after.account []) :=
  @run_induction after (fun c tokens => c.OpensTop → (c.account tokens).Perm (after.account []))
    (fun _ => .refl _)
    (fun _ _ _ _ hstep ih htop => (hstep.perm_account htop).trans (ih hstep.opensTop)) c tokens h

end

/-- What is open at the end gives what is awaited. -/
theorem perm_finish {output : Output} {pending : List Pending} {items : List Postfix}
    (h : finish output pending = .ok items) (depth : Nat) :
    items.Perm (output.items ++ Pending.awaitedFrom [] depth pending) := by
  induction pending generalizing output depth with
  | nil =>
    obtain rfl : output.items.reverse = items := Except.ok.inj h
    rw [Pending.awaitedFrom, List.append_nil]
    exact List.reverse_perm _
  | cons top pending ih =>
    cases top with
    | operator op => exact (ih h depth).trans (perm_push output _ [] _).symm
    | paren => exact ih h (depth + 1)
    | call function commas mark =>
      obtain ⟨_, -, h⟩ := bind_eq_ok_iff.mp h
      exact (ih h (depth + 1)).trans (perm_push output _ [] _).symm

/-- **The postfix order consists of the items of the tokens.** -/
theorem perm_ofTokens {tokens : List Token} {items : List Postfix}
    (h : ofTokens tokens = .ok items) : items.Perm (Token.items tokens) := by
  obtain ⟨c, hrun, hfinish⟩ := bind_eq_ok_iff.mp h
  have haccount := perm_account_run hrun (by intro hopened; cases hopened)
  have hend : c.account [] = c.output.items ++ Pending.awaitedFrom [] 0 c.pending := by
    rw [account, awaited_of_head? (by simp)]
    exact congrArg (c.output.items ++ ·) (List.append_nil _)
  rw [hend] at haccount
  exact (perm_finish hfinish 0).trans haccount.symm

/-- The numbers and variables of the postfix order are those of the tokens. -/
theorem operands_ofTokens {tokens : List Token} {items : List Postfix}
    (h : ofTokens tokens = .ok items) : items.filterMap token? = Token.operandTokens tokens := by
  rw [← token?_leaves, leaves_ofTokens h, Token.leaves, token?_leavesFrom]

end Postfix

/-! ## Top theorem -/

/-- **Nothing is lost, repeated or invented.**  The numbers and variables of the postfix order are
those of the tokens in the same order, each operator stands in it as often as in the tokens, and the
calls are the names in front of an opening parenthesis, each once and with its own arguments. -/
theorem ofTokens_keeps_items {tokens : List Token} {items : List Postfix}
    (h : Postfix.ofTokens tokens = .ok items) :
    items.filterMap Postfix.token? = Token.operandTokens tokens ∧
    (∀ op, items.count (.operator op) = tokens.count (.operator op)) ∧
    (items.filterMap Postfix.call?).Perm (Token.openedCalls tokens) := by
  have hitems := Postfix.perm_ofTokens h
  refine ⟨Postfix.operands_ofTokens h, fun op => ?_, ?_⟩
  · rw [hitems.count_eq, count_items]
  · rw [← call?_items]
    exact hitems.filterMap _

/-- The formula `2) * max(min(low, 1), (3` closes a parenthesis too many and leaves two open. -/
theorem ofTokens_keeps_items_unbalanced :
    let tokens := [.number 2, .rightParen, .operator .mul, .identifier "max", .leftParen,
      .identifier "min", .leftParen, .identifier "low", .comma, .number 1, .rightParen, .comma,
      .leftParen, .number 3]
    let items := [.number 2, .var "low", .number 1, .call "min" 2, .number 3, .call "max" 2,
      .operator .mul]
    Postfix.ofTokens tokens = .ok items ∧
    items.filterMap Postfix.token? = [.number 2, .identifier "low", .number 1, .number 3] ∧
    (∀ op, items.count (.operator op) = tokens.count (.operator op)) ∧
    (items.filterMap Postfix.call?).Perm [("max", 2), ("min", 2)] := by
  intro tokens items
  have h : Postfix.ofTokens tokens = .ok items := rfl
  exact ⟨h, ofTokens_keeps_items h⟩

end TradePlan
