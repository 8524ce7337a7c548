import TradePlan.Proofs.Nesting
import TradePlan.Proofs.Rendering

/-!
# Formulas in infix order

The conversion to postfix order looks at the height of its output, not at the order of the tokens.
So `2 3 +` and `+ 2 3` are read as the sum that `2 + 3` is, and `2 ()` is read as a number.  The
formulas that the grammar derives are those that are read, are balanced and are in infix order:

    Derives 1 tokens e ↔ Formula.parse formula = .ok e ∧ isBalanced tokens ∧ isInfix tokens

What is read and balanced is nested: each comma is inside a call, and each call is of a function
that there is.  Nested tokens in infix order start with an operand, after which an operator goes on
with the expression or a bracket or a comma ends it.
-/

namespace TradePlan

namespace Token

/-! ## Three scans -/

/-- Whether every parenthesis is closed, with some of them open in front of the tokens, and none is
closed that is not open. -/
def isBalancedFrom (opened : Nat) : List Token → Bool
  | [] => opened == 0
  | .leftParen :: rest => isBalancedFrom (opened + 1) rest
  | .rightParen :: rest => opened != 0 && isBalancedFrom (opened - 1) rest
  | _ :: rest => isBalancedFrom opened rest

def isBalanced (tokens : List Token) : Bool := isBalancedFrom 0 tokens

/-- Whether operators and commas stand between operands: one follows each operand, unless a
parenthesis is closed or the tokens end.  Only the argument list of a call may be empty. -/
def isInfixFrom : (expectsOperand : Bool) → List Token → Bool
  | true, .number _ :: rest => isInfixFrom false rest
  | true, .identifier _ :: .leftParen :: .rightParen :: rest => isInfixFrom false rest
  | true, .identifier _ :: .leftParen :: rest => isInfixFrom true rest
  | true, .identifier _ :: rest => isInfixFrom false rest
  | true, .leftParen :: rest => isInfixFrom true rest
  | false, .operator _ :: rest => isInfixFrom true rest
  | false, .comma :: rest => isInfixFrom true rest
  | false, .rightParen :: rest => isInfixFrom false rest
  | false, [] => true
  | _, _ => false

def isInfix (tokens : List Token) : Bool := isInfixFrom true tokens

/-- Whether tokens close the brackets that are open in front of them and those that they open, with
commas inside calls only and only calls of functions that there are. -/
def isNestedFrom (brackets : List (Option String)) : List Token → Bool
  | [] => brackets.isEmpty
  | .identifier name :: .leftParen :: rest =>
    Builtin.isName name && isNestedFrom (some name :: brackets) rest
  | .leftParen :: rest => isNestedFrom (none :: brackets) rest
  | .rightParen :: rest => !brackets.isEmpty && isNestedFrom brackets.tail rest
  | .comma :: rest => (brackets.head?.join).isSome && isNestedFrom brackets rest
  | _ :: rest => isNestedFrom brackets rest

theorem isNestedFrom_identifier {brackets : List (Option String)} {name : String}
    {rest : List Token} (h : rest.head? ≠ some .leftParen) :
    isNestedFrom brackets (.identifier name :: rest) = isNestedFrom brackets rest := by
  cases rest with
  | nil => rfl
  | cons token rest =>
    cases token with
    | leftParen => exact absurd rfl h
    | _ => rfl

theorem isInfixFrom_identifier {name : String} {rest : List Token}
    (h : rest.head? ≠ some .leftParen) :
    isInfixFrom true (.identifier name :: rest) = isInfixFrom false rest := by
  cases rest with
  | nil => rfl
  | cons token rest =>
    cases token with
    | leftParen => exact absurd rfl h
    | _ => rfl

theorem isInfixFrom_call {name : String} {rest : List Token}
    (h : rest.head? ≠ some .rightParen) :
    isInfixFrom true (.identifier name :: .leftParen :: rest) = isInfixFrom true rest := by
  cases rest with
  | nil => rfl
  | cons token rest =>
    cases token with
    | rightParen => exact absurd rfl h
    | _ => rfl

theorem head?_ne_rightParen_of_isInfixFrom {tokens : List Token}
    (h : isInfixFrom true tokens = true) : tokens.head? ≠ some .rightParen := by
  cases tokens with
  | nil => simp
  | cons token rest =>
    cases token with
    | rightParen => cases h
    | _ => simp

/-- Nested tokens are balanced. -/
theorem isBalancedFrom_of_isNestedFrom {brackets : List (Option String)} {tokens : List Token}
    (h : isNestedFrom brackets tokens = true) : isBalancedFrom brackets.length tokens = true := by
  fun_induction isNestedFrom brackets tokens with
  | case1 brackets => simpa [isBalancedFrom] using h
  | case2 brackets name rest ih =>
    rw [Bool.and_eq_true] at h
    exact ih h.2
  | case3 brackets rest ih => exact ih h
  | case4 brackets rest ih =>
    rw [Bool.and_eq_true] at h
    have hclose := ih h.2
    rw [List.length_tail] at hclose
    rw [isBalancedFrom, hclose, Bool.and_true]
    simpa using h.1
  | case5 brackets rest ih =>
    rw [Bool.and_eq_true] at h
    exact ih h.2
  | case6 brackets token rest _ hopen hclose _ ih =>
    cases token with
    | leftParen => exact absurd rfl hopen
    | rightParen => exact absurd rfl hclose
    | _ => exact ih h

end Token

open Token

/-! ## What is derived is nested and in infix order -/

/-- Tokens that can stand wherever an operand can: what follows them decides. -/
def ScansAsOperand (tokens : List Token) : Prop :=
  ∀ (brackets : List (Option String)) (rest : List Token), rest.head? ≠ some .leftParen →
    isNestedFrom brackets (tokens ++ rest) = isNestedFrom brackets rest ∧
    isInfixFrom true (tokens ++ rest) = isInfixFrom false rest

/-- Tokens that can stand as the arguments of a call. -/
def ScansAsArguments (tokens : List Token) : Prop :=
  ∀ (function : String) (brackets : List (Option String)) (rest : List Token),
    rest.head? ≠ some .leftParen →
    isNestedFrom (some function :: brackets) (tokens ++ rest) =
      isNestedFrom (some function :: brackets) rest ∧
    isInfixFrom true (tokens ++ rest) = isInfixFrom false rest

theorem scansAsOperand_paren {tokens : List Token} (h : ScansAsOperand tokens) :
    ScansAsOperand (.leftParen :: (tokens ++ [.rightParen])) := by
  intro brackets rest hrest
  obtain ⟨hnested, hinOrder⟩ := h (none :: brackets) (.rightParen :: rest) (by simp)
  rw [List.cons_append, List.append_assoc, List.singleton_append]
  exact ⟨hnested, hinOrder⟩

theorem scansAsOperand_call {function : String} {tokens : List Token}
    (hname : Builtin.isName function = true) (h : ScansAsArguments tokens) :
    ScansAsOperand (.identifier function :: .leftParen :: (tokens ++ [.rightParen])) := by
  intro brackets rest hrest
  obtain ⟨hnested, hinOrder⟩ := h function brackets (.rightParen :: rest) (by simp)
  -- alone, the arguments are in infix order, so they are not empty and do not start with `)`
  have halone := (h function brackets [] (by simp)).2
  rw [List.append_nil] at halone
  have hhead : (tokens ++ .rightParen :: rest).head? ≠ some .rightParen := by
    have hfirst := head?_ne_rightParen_of_isInfixFrom halone
    cases tokens with
    | nil => cases halone
    | cons token tokens => exact hfirst
  rw [List.cons_append, List.cons_append, List.append_assoc, List.singleton_append,
    isInfixFrom_call hhead]
  refine ⟨?_, hinOrder⟩
  rw [isNestedFrom, hname, Bool.true_and]
  exact hnested

theorem scansAsOperand_binary {op : Operator} {before after : List Token}
    (hbefore : ScansAsOperand before) (hafter : ScansAsOperand after) :
    ScansAsOperand (before ++ .operator op :: after) := by
  intro brackets rest hrest
  obtain ⟨hnested, hinOrder⟩ := hbefore brackets (.operator op :: (after ++ rest)) (by simp)
  obtain ⟨hnested', hinOrder'⟩ := hafter brackets rest hrest
  rw [List.append_assoc, List.cons_append]
  exact ⟨hnested.trans hnested', hinOrder.trans hinOrder'⟩

theorem scansAsArguments_more {tokens others : List Token} (h : ScansAsOperand tokens)
    (hothers : ScansAsArguments others) : ScansAsArguments (tokens ++ .comma :: others) := by
  intro function brackets rest hrest
  obtain ⟨hnested, hinOrder⟩ := h (some function :: brackets) (.comma :: (others ++ rest)) (by simp)
  obtain ⟨hnested', hinOrder'⟩ := hothers function brackets rest hrest
  rw [List.append_assoc, List.cons_append]
  exact ⟨hnested.trans hnested', hinOrder.trans hinOrder'⟩

theorem scansAsOperand_of_derives {level : Nat} {tokens : List Token} {e : Expr}
    (h : Derives level tokens e) : ScansAsOperand tokens :=
  @Derives.rec (fun _ tokens _ _ => ScansAsOperand tokens)
    (fun tokens _ _ => ScansAsArguments tokens)
    (fun _ _ _ _ => ⟨rfl, rfl⟩)
    (fun _ _ _ hrest => ⟨isNestedFrom_identifier hrest, isInfixFrom_identifier hrest⟩)
    (fun _ ih => scansAsOperand_paren ih)
    (fun hname _ ih => scansAsOperand_call (mem_functionNames_iff.mp hname) ih)
    (fun hname _ _ _ => ⟨by rw [List.cons_append, List.cons_append, isNestedFrom,
      mem_functionNames_iff.mp hname]; rfl, rfl⟩)
    (fun _ _ _ ihleft ihright => scansAsOperand_binary ihleft ihright)
    (fun _ ih => ih)
    (fun _ ih function brackets => ih (some function :: brackets))
    (fun _ _ ih ihothers => scansAsArguments_more ih ihothers)
    level tokens e h

theorem isNested_of_derives {tokens : List Token} {e : Expr} (h : Derives 1 tokens e) :
    isNestedFrom [] tokens = true ∧ isInfix tokens = true := by
  obtain ⟨hnested, hinOrder⟩ := scansAsOperand_of_derives h [] [] (by simp)
  rw [List.append_nil] at hnested hinOrder
  exact ⟨hnested, hinOrder⟩

/-! ## What is nested and in infix order is derived -/

/-- An operand behind an operator that binds at least as strongly as its level. -/
theorem derives_snoc {level : Nat} {tokens : List Token} {e : Expr} (h : Derives level tokens e) :
    ∀ (op : Operator) (after : List Token) (operand : Expr), level ≤ op.precedence →
      Derives 4 after operand → ∃ all, Derives level (tokens ++ .operator op :: after) all := by
  have htop : ∀ op : Operator, ¬ 4 ≤ op.precedence := fun op hle => by
    have := Expr.precedence_le op
    omega
  have hsnoc : ∀ {level : Nat} {tokens after : List Token} {e operand : Expr} {op : Operator},
      op.precedence = level → Derives level tokens e → Derives 4 after operand →
      ∃ all, Derives level (tokens ++ .operator op :: after) all := by
    rintro level tokens after e operand op rfl h hoperand
    exact ⟨_, .binary (mem_operatorsAt_iff.mpr rfl) h
      (Expr.derives_of_le hoperand (Expr.precedence_le op))⟩
  refine @Derives.rec (fun level tokens _ _ => ∀ (op : Operator) (after : List Token) (operand : Expr),
      level ≤ op.precedence → Derives 4 after operand →
      ∃ all, Derives level (tokens ++ .operator op :: after) all)
    (fun _ _ _ => True) ?number ?var ?paren ?call ?callEmpty ?binary ?tighter ?last ?more level tokens e h
  case number => exact fun _ op _ _ hle => absurd hle (htop op)
  case var => exact fun _ op _ _ hle => absurd hle (htop op)
  case paren => exact fun _ _ op _ _ hle => absurd hle (htop op)
  case call => exact fun _ _ _ op _ _ hle => absurd hle (htop op)
  case callEmpty => exact fun _ op _ _ hle => absurd hle (htop op)
  case binary =>
    intro level first before between left right hfirst hleft hright _ ihright op after operand hle hoperand
    by_cases hsame : op.precedence = level
    · -- the operator groups the whole to its left
      exact hsnoc hsame (.binary hfirst hleft hright) hoperand
    · -- the operator binds more strongly, and takes the end of the right operand
      obtain ⟨all, hall⟩ := ihright op after operand (by omega) hoperand
      refine ⟨.binary first left all, ?_⟩
      rw [List.append_assoc, List.cons_append]
      exact .binary hfirst hleft hall
  case tighter =>
    intro level tokens e h ih op after operand hle hoperand
    by_cases hsame : op.precedence = level
    · exact hsnoc hsame (.tighter h) hoperand
    · obtain ⟨all, hall⟩ := ih op after operand (by omega) hoperand
      exact ⟨all, .tighter hall⟩
  case last => exact fun _ _ => trivial
  case more => exact fun _ _ _ _ => trivial

/-- The tokens start with what a predicate allows, and what follows it is nested and goes on with an
operator, a comma or a closing parenthesis, if it goes on. -/
def StartsWith (allowed : List Token → Prop) (brackets : List (Option String))
    (tokens : List Token) : Prop :=
  ∃ body rest, tokens = body ++ rest ∧ allowed body ∧ isNestedFrom brackets rest = true ∧
    isInfixFrom false rest = true

/-- Every list of tokens that is nested and in infix order, up to a length, starts with an
operand. -/
def StartWithOperands (bound : Nat) : Prop :=
  ∀ brackets tokens, tokens.length ≤ bound → isNestedFrom brackets tokens = true →
    isInfixFrom true tokens = true →
    StartsWith (fun body => ∃ e, Derives 4 body e) brackets tokens

/-- The tokens start with an expression that no operator goes on with. -/
def StartsWithExpression (brackets : List (Option String)) (tokens : List Token) : Prop :=
  ∃ body e rest, tokens = body ++ rest ∧ Derives 1 body e ∧ isNestedFrom brackets rest = true ∧
    isInfixFrom false rest = true ∧ ∀ op, rest.head? ≠ some (.operator op)

theorem StartWithOperands.mono {bound : Nat} (h : StartWithOperands (bound + 1)) :
    StartWithOperands bound :=
  fun brackets tokens hlength => h brackets tokens (Nat.le_succ_of_le hlength)

/-- An expression goes on with all operators and operands that follow it. -/
theorem exists_longest_expression {bound : Nat} (hoperands : StartWithOperands bound)
    {brackets : List (Option String)} {front rest : List Token} {e : Expr}
    (hlength : rest.length ≤ bound) (hfront : Derives 1 front e)
    (hnested : isNestedFrom brackets rest = true) (hinOrder : isInfixFrom false rest = true) :
    StartsWithExpression brackets (front ++ rest) := by
  induction bound generalizing front rest e with
  | zero =>
    obtain rfl := List.length_eq_zero_iff.mp (Nat.le_zero.mp hlength)
    exact ⟨front, e, [], rfl, hfront, hnested, hinOrder, by simp⟩
  | succ bound ih =>
    by_cases hop : ∃ op, rest.head? = some (.operator op)
    · obtain ⟨op, hop⟩ := hop
      obtain ⟨rest, rfl⟩ := List.head?_eq_some_iff.mp hop
      have hbound : rest.length ≤ bound := Nat.le_of_succ_le_succ hlength
      obtain ⟨body, after, rfl, ⟨operand, hbody⟩, hnested, hinOrder⟩ :=
        hoperands brackets rest (Nat.le_succ_of_le hbound) hnested hinOrder
      have hprecedence : 1 ≤ op.precedence := by
        cases op <;> decide
      obtain ⟨all, hall⟩ := derives_snoc hfront op body operand hprecedence hbody
      rw [List.length_append] at hbound
      have hlater := ih hoperands.mono (by omega) hall hnested hinOrder
      rwa [List.append_assoc, List.cons_append] at hlater
    · exact ⟨front, e, rest, rfl, hfront, hnested, hinOrder, fun op hhead => hop ⟨op, hhead⟩⟩

theorem startsWithExpression {bound : Nat} (hoperands : StartWithOperands bound)
    {brackets : List (Option String)} {tokens : List Token} (hlength : tokens.length ≤ bound)
    (hnested : isNestedFrom brackets tokens = true) (hinOrder : isInfixFrom true tokens = true) :
    StartsWithExpression brackets tokens := by
  obtain ⟨body, rest, rfl, ⟨e, hbody⟩, hnested, hinOrder⟩ :=
    hoperands brackets tokens hlength hnested hinOrder
  rw [List.length_append] at hlength
  exact exists_longest_expression hoperands (by omega) (Expr.derives_of_le hbody (by decide)) hnested
    hinOrder

/-- What follows an expression inside brackets: a comma, in a call, or the closing parenthesis. -/
theorem comma_or_rightParen {bracket : Option String} {brackets : List (Option String)}
    {rest : List Token} (hnested : isNestedFrom (bracket :: brackets) rest = true)
    (hinOrder : isInfixFrom false rest = true) (hop : ∀ op, rest.head? ≠ some (.operator op)) :
    (∃ after, rest = .rightParen :: after ∧ isNestedFrom brackets after = true ∧
      isInfixFrom false after = true) ∨
    ∃ after, rest = .comma :: after ∧ bracket.isSome = true ∧
      isNestedFrom (bracket :: brackets) after = true ∧ isInfixFrom true after = true := by
  cases rest with
  | nil => cases hnested
  | cons token after =>
    cases token with
    | rightParen => exact .inl ⟨after, rfl, hnested, hinOrder⟩
    | comma =>
      rw [isNestedFrom, Bool.and_eq_true] at hnested
      exact .inr ⟨after, rfl, hnested.1, hnested.2, hinOrder⟩
    | operator op => exact absurd rfl (hop op)
    | number value => cases hinOrder
    | identifier name => cases hinOrder
    | leftParen => cases hinOrder

/-- Inside a call, tokens start with arguments and the closing parenthesis. -/
theorem startsWith_arguments {bound : Nat} (hoperands : StartWithOperands bound) {function : String}
    {brackets : List (Option String)} {tokens : List Token} (hlength : tokens.length ≤ bound)
    (hnested : isNestedFrom (some function :: brackets) tokens = true)
    (hinOrder : isInfixFrom true tokens = true) :
    StartsWith (fun body => ∃ inner args, body = inner ++ [.rightParen] ∧ DerivesArguments inner args)
      brackets tokens := by
  induction bound generalizing tokens with
  | zero =>
    obtain rfl := List.length_eq_zero_iff.mp (Nat.le_zero.mp hlength)
    cases hinOrder
  | succ bound ih =>
    obtain ⟨body, e, rest, rfl, hbody, hnested, hinOrder, hop⟩ :=
      startsWithExpression hoperands hlength hnested hinOrder
    rcases comma_or_rightParen hnested hinOrder hop with
      ⟨after, rfl, hnested, hinOrder⟩ | ⟨after, rfl, -, hnested, hinOrder⟩
    · exact ⟨body ++ [.rightParen], after, by simp, ⟨body, [e], rfl, .last hbody⟩, hnested, hinOrder⟩
    · rw [List.length_append, List.length_cons] at hlength
      obtain ⟨_, later, rfl, ⟨inner, args, rfl, hinner⟩, hnested, hinOrder⟩ :=
        ih hoperands.mono (by omega) hnested hinOrder
      exact ⟨body ++ .comma :: inner ++ [.rightParen], later, by simp,
        ⟨body ++ .comma :: inner, e :: args, rfl, .more hbody hinner⟩, hnested, hinOrder⟩

theorem startWithOperands (bound : Nat) : StartWithOperands bound := by
  induction bound with
  | zero =>
    intro brackets tokens hlength hnested hinOrder
    obtain rfl := List.length_eq_zero_iff.mp (Nat.le_zero.mp hlength)
    cases hinOrder
  | succ bound ih =>
    intro brackets tokens hlength hnested hinOrder
    match tokens with
    | [] => cases hinOrder
    | .number value :: rest => exact ⟨[.number value], rest, rfl, ⟨_, .number value⟩, hnested, hinOrder⟩
    | .leftParen :: rest =>
      obtain ⟨body, e, after, rfl, hbody, hnested, hinOrder, hop⟩ :=
        startsWithExpression ih (Nat.le_of_succ_le_succ hlength) hnested hinOrder
      rcases comma_or_rightParen hnested hinOrder hop with
        ⟨later, rfl, hnested, hinOrder⟩ | ⟨_, -, hbracket, -⟩
      · exact ⟨.leftParen :: (body ++ [.rightParen]), later, by simp, ⟨e, .paren hbody⟩, hnested,
          hinOrder⟩
      · cases hbracket
    | .identifier name :: rest =>
      by_cases hparen : rest.head? = some .leftParen
      · obtain ⟨rest, rfl⟩ := List.head?_eq_some_iff.mp hparen
        rw [isNestedFrom, Bool.and_eq_true] at hnested
        by_cases hempty : rest.head? = some .rightParen
        · obtain ⟨rest, rfl⟩ := List.head?_eq_some_iff.mp hempty
          exact ⟨[.identifier name, .leftParen, .rightParen], rest, rfl,
            ⟨_, .callEmpty (mem_functionNames_iff.mpr hnested.1)⟩, hnested.2, hinOrder⟩
        · rw [isInfixFrom_call hempty] at hinOrder
          simp only [List.length_cons] at hlength
          obtain ⟨_, later, rfl, ⟨inner, args, rfl, hinner⟩, hafter, hinOrder⟩ :=
            startsWith_arguments ih (by omega) hnested.2 hinOrder
          exact ⟨.identifier name :: .leftParen :: (inner ++ [.rightParen]), later, by simp,
            ⟨_, .call (mem_functionNames_iff.mpr hnested.1) hinner⟩, hafter, hinOrder⟩
      · rw [isNestedFrom_identifier hparen] at hnested
        rw [isInfixFrom_identifier hparen] at hinOrder
        exact ⟨[.identifier name], rest, rfl, ⟨_, .var name⟩, hnested, hinOrder⟩

/-- Tokens that are nested and in infix order are derived. -/
theorem exists_derives {tokens : List Token} (hnested : isNestedFrom [] tokens = true)
    (hinOrder : isInfix tokens = true) : ∃ e, Derives 1 tokens e := by
  obtain ⟨body, e, rest, rfl, hbody, hnested, hinOrder, hop⟩ :=
    startsWithExpression (startWithOperands tokens.length) le_rfl hnested hinOrder
  cases rest with
  | nil =>
    rw [List.append_nil]
    exact ⟨e, hbody⟩
  | cons token rest =>
    cases token with
    | rightParen => cases hnested
    | comma => cases hnested
    | operator op => exact absurd rfl (hop op)
    | number value => cases hinOrder
    | identifier name => cases hinOrder
    | leftParen => cases hinOrder

/-! ## What is read and balanced is nested -/

open Postfix Conversion

/-- A run over balanced tokens meets commas and closing brackets inside the brackets they need. -/
theorem isNestedFrom_of_run {c after : Conversion} {tokens : List Token}
    (h : run c tokens = .ok after)
    (hbalanced : isBalancedFrom (brackets c.pending).length tokens = true) :
    isNestedFrom (brackets c.pending) tokens = true := by
  revert hbalanced
  refine run_induction
    (motive := fun c tokens => isBalancedFrom (brackets c.pending).length tokens = true →
      isNestedFrom (brackets c.pending) tokens = true) ?done ?step h
  case done =>
    intro hbalanced
    rw [isBalancedFrom, beq_iff_eq] at hbalanced
    rw [isNestedFrom, List.isEmpty_iff, ← List.length_eq_zero_iff, hbalanced]
  case step =>
    intro c consumed rest next hstep ih hbalanced
    cases hstep with
    | number value => exact ih hbalanced
    | var name hrest =>
      rw [List.singleton_append, isNestedFrom_identifier hrest]
      exact ih hbalanced
    | openParen => exact ih hbalanced
    | openCall hname =>
      rw [List.cons_append, List.singleton_append, isNestedFrom, hname, Bool.true_and]
      exact ih hbalanced
    | operate op =>
      obtain ⟨ops, pending, hpending, hoperate⟩ := operate_eq c op
      rw [hoperate] at ih
      rw [hpending, brackets_waiting_append] at hbalanced ⊢
      exact ih hbalanced
    | comma hdepth =>
      rw [brackets_waiting_append] at hbalanced ⊢
      exact ih hbalanced
    | closeStray =>
      rw [brackets_waiting] at hbalanced
      cases hbalanced
    | closeParen =>
      rw [brackets_waiting_append] at hbalanced ⊢
      exact ih hbalanced
    | closeCall hdepth =>
      rw [brackets_waiting_append] at hbalanced ⊢
      exact ih hbalanced
    | closeEmpty =>
      rw [brackets_waiting_append] at hbalanced ⊢
      exact ih hbalanced

/-! ## Faults of formulas that are not read -/

/-- A fault of the order of tokens, or of a call of a function that there is not. -/
def IsShapeFault (fault : FormulaError) : Prop :=
  (∃ shape, fault = .malformed shape) ∨
    ∃ name, Builtin.isName name = false ∧ fault = .unknownFunction name

theorem malformed_of_checkArgument {output : Output} {function : String} {mark : Int}
    {fault : FormulaError} (h : output.checkArgument function mark = .error fault) :
    ∃ shape, fault = .malformed shape := by
  simp only [Output.checkArgument] at h
  split at h
  · cases h
  · split at h
    · exact ⟨_, (Except.error.inj h).symm⟩
    · exact ⟨_, (Except.error.inj h).symm⟩

theorem malformed_of_comma {c : Conversion} {fault : FormulaError} (h : c.comma = .error fault) :
    ∃ shape, fault = .malformed shape := by
  simp only [Conversion.comma] at h
  split at h
  · rcases bind_eq_error_iff.mp h with h | ⟨_, -, h⟩
    · exact malformed_of_checkArgument h
    · cases h
  · exact ⟨_, (Except.error.inj h).symm⟩

theorem malformed_of_close {c : Conversion} {fault : FormulaError} (h : c.close = .error fault) :
    ∃ shape, fault = .malformed shape := by
  simp only [close] at h
  split at h
  · split at h
    · cases h
    · rcases bind_eq_error_iff.mp h with h | ⟨_, -, h⟩
      · exact malformed_of_checkArgument h
      · cases h
  · cases h

theorem malformed_of_finish {output : Output} {pending : List Pending} {fault : FormulaError}
    (h : finish output pending = .error fault) : ∃ shape, fault = .malformed shape := by
  fun_induction finish output pending with
  | case1 => cases h
  | case2 output op pending ih => exact ih h
  | case3 output pending ih => exact ih h
  | case4 output function commas mark pending ih =>
    rcases bind_eq_error_iff.mp h with h | ⟨_, -, h⟩
    · exact malformed_of_checkArgument h
    · exact ih h

/-- The fault is that the tokens open a call of a function that there is not. -/
def IsCallFault (tokens : List Token) (fault : FormulaError) : Prop :=
  ∃ name rest, .identifier name :: .leftParen :: rest <:+ tokens ∧ Builtin.isName name = false ∧
    fault = .unknownFunction name

theorem IsCallFault.cons {tokens : List Token} {fault : FormulaError} (h : IsCallFault tokens fault)
    (token : Token) : IsCallFault (token :: tokens) fault := by
  obtain ⟨name, rest, hsuffix, hfault⟩ := h
  exact ⟨name, rest, hsuffix.trans (List.suffix_cons token tokens), hfault⟩

theorem run_error_cases {c : Conversion} {tokens : List Token} {fault : FormulaError}
    (h : run c tokens = .error fault) :
    (∃ shape, fault = .malformed shape) ∨ IsCallFault tokens fault := by
  fun_induction run c tokens with
  | case1 => cases h
  | case2 c name rest hname ih => exact (ih h).imp_right fun hcall => (hcall.cons _).cons _
  | case3 c name rest hname =>
    exact .inr ⟨name, rest, List.suffix_rfl, Bool.eq_false_iff.mpr hname,
      (Except.error.inj h).symm⟩
  | case4 c name rest hrest ih => exact (ih h).imp_right (·.cons _)
  | case5 c value rest ih => exact (ih h).imp_right (·.cons _)
  | case6 c op rest ih => exact (ih h).imp_right (·.cons _)
  | case7 c rest ih => exact (ih h).imp_right (·.cons _)
  | case8 c rest ih =>
    rcases bind_eq_error_iff.mp h with h | ⟨next, -, h⟩
    · exact .inl (malformed_of_comma h)
    · exact (ih next h).imp_right (·.cons _)
  | case9 c rest ih =>
    rcases bind_eq_error_iff.mp h with h | ⟨next, -, h⟩
    · exact .inl (malformed_of_close h)
    · exact (ih next h).imp_right (·.cons _)

/-- Tokens that have no tree are malformed, or they open a call of a function that there is not. -/
theorem tree_error_cases {tokens : List Token} {fault : FormulaError}
    (h : (ofTokens tokens >>= Expr.ofPostfix) = .error fault) :
    (∃ shape, fault = .malformed shape) ∨ IsCallFault tokens fault := by
  rcases bind_eq_error_iff.mp h with horder | ⟨items, -, htree⟩
  · rcases bind_eq_error_iff.mp horder with hrun | ⟨after, -, hfinish⟩
    · exact run_error_cases hrun
    · exact .inl (malformed_of_finish hfinish)
  · exact .inl (Expr.ofPostfix_error htree)

/-- Tokens that have no tree have a fault of their shape. -/
theorem isShapeFault_of_parse {formula : String} {tokens : List Token} {fault : FormulaError}
    (htokens : Formula.tokens formula = .ok tokens) (h : Formula.parse formula = .error fault) :
    IsShapeFault fault := by
  rw [Formula.parse, htokens, ok_bind] at h
  refine (tree_error_cases h).imp_right ?_
  rintro ⟨name, rest, -, hname, hfault⟩
  exact ⟨name, hname, hfault⟩

/-! ## Top theorem -/

/-- **The formulas of the grammar are those that are read, are balanced and are in infix order.**  They
are read as the tree of their derivation, and tokens that are not read have a fault of their shape. -/
theorem derives_iff_isInfix {formula : String} {tokens : List Token}
    (htokens : Formula.tokens formula = .ok tokens) :
    (∀ e, Derives 1 tokens e ↔
      Formula.parse formula = .ok e ∧ isBalanced tokens = true ∧ isInfix tokens = true) ∧
    ∀ fault, Formula.parse formula = .error fault → IsShapeFault fault := by
  refine ⟨fun e => ⟨fun h => ?_, ?_⟩, fun fault => isShapeFault_of_parse htokens⟩
  · obtain ⟨hnested, hinOrder⟩ := isNested_of_derives h
    exact ⟨Expr.parse_eq_ok_iff.mpr ⟨tokens, htokens, ofTokens_of_derives h⟩,
      isBalancedFrom_of_isNestedFrom hnested, hinOrder⟩
  · rintro ⟨hparse, hbalanced, hinOrder⟩
    obtain ⟨others, hothers, horder⟩ := Expr.parse_eq_ok_iff.mp hparse
    obtain rfl : tokens = others := Except.ok.inj (htokens.symm.trans hothers)
    obtain ⟨after, hrun, -⟩ := bind_eq_ok_iff.mp horder
    obtain ⟨d, hd⟩ := exists_derives (isNestedFrom_of_run hrun hbalanced) hinOrder
    -- the derivation is of the tree that is read
    have hsame := (ofTokens_of_derives hd).symm.trans horder
    have hpost : Expr.ofPostfix d.postorder = .ok e :=
      Expr.ofPostfix_eq_ok_iff.mpr (Except.ok.inj hsame)
    obtain rfl : d = e := Except.ok.inj ((Expr.ofPostfix_eq_ok_iff.mpr rfl).symm.trans hpost)
    exact hd

theorem reads_two {rest : List Char} {tokens : List Token} (hrest : Ends rest)
    (h : Reads rest tokens) : Reads ('2' :: rest) (number 2 :: tokens) :=
  reads_lexeme (by decide +kernel) (show _ = ['2'] by decide +kernel) hrest h

/-- The call `max(entry, 2 + 2)` is read, is balanced and is in infix order, so it is derived. -/
theorem derives_iff_isInfix_call :
    Formula.tokens "max(entry, 2 + 2)" = .ok [identifier "max", leftParen, identifier "entry", comma,
      number 2, operator .add, number 2, rightParen] ∧
    Derives 1 [identifier "max", leftParen, identifier "entry", comma, number 2, operator .add,
      number 2, rightParen] (.call "max" [.var "entry", .binary .add (.number 2) (.number 2)]) := by
  have htokens : Formula.tokens "max(entry, 2 + 2)" = .ok [identifier "max", leftParen,
      identifier "entry", comma, number 2, operator .add, number 2, rightParen] := by
    have hlast := reads_two (ends_cons (by decide) (by decide))
      (reads_sign (c := ')') (by decide) rfl reads_nil)
    have hsum := reads_two (ends_cons (by decide) (by decide))
      (reads_space (reads_sign (c := '+') (by decide) rfl (reads_space hlast)))
    have hargs := @reads_name "entry" (by decide) _ (ends_cons (by decide) (by decide)) _
      (reads_sign (c := ',') (by decide) rfl (reads_space hsum))
    have hcall := @reads_name "max" (by decide) _ (ends_cons (by decide) (by decide)) _
      (reads_sign (c := '(') (by decide) rfl hargs)
    exact tokens_of_reads hcall (by decide) (by decide) (by decide)
  have hparse : Formula.parse "max(entry, 2 + 2)" =
      .ok (.call "max" [.var "entry", .binary .add (.number 2) (.number 2)]) := by
    rw [Formula.parse, htokens]
    rfl
  exact ⟨htokens, ((derives_iff_isInfix htokens).1 _).mpr ⟨hparse, rfl, rfl⟩⟩

/-- The operands may stand in front of their operator: `2 2 +` is read as `2 + 2` is, and no
derivation has its tokens. -/
theorem parse_postfix_order :
    Formula.tokens "2 2 +" = .ok [number 2, number 2, operator .add] ∧
    isBalanced [number 2, number 2, operator .add] = true ∧
    Formula.parse "2 2 +" = .ok (.binary .add (.number 2) (.number 2)) ∧
    ¬ ∃ e, Derives 1 [number 2, number 2, operator .add] e := by
  have htokens : Formula.tokens "2 2 +" = .ok [number 2, number 2, operator .add] := by
    have hsum := reads_sign (c := '+') (by decide) rfl reads_nil
    have hright := reads_two (ends_cons (by decide) (by decide)) (reads_space hsum)
    have hleft := reads_two (ends_cons (by decide) (by decide)) (reads_space hright)
    exact tokens_of_reads hleft (by decide) (by decide) (by decide)
  refine ⟨htokens, rfl, ?_, ?_⟩
  · rw [Formula.parse, htokens]
    rfl
  · rintro ⟨e, he⟩
    have hinOrder := (isNested_of_derives he).2
    cases hinOrder

end TradePlan
