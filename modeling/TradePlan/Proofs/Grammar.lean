import TradePlan.Proofs.Conversion
import TradePlan.Proofs.Postorder

/-!
# The grammar of formulas

The grammar as derivations of token lists, with one level for each rank of operators and one for
what binds tightest, and the proof that the conversion to postfix order followed by the building of
the tree reads every derived list as the tree of its derivation:

    Derives 1 tokens e → (Postfix.ofTokens tokens >>= Expr.ofPostfix) = .ok e

A derived list leaves its operators waiting on top of what was pending before it.  Those operators
bind at least as strongly as the level of the list, and with them the output has gained the postfix
order of the tree.
-/

namespace TradePlan

open Postfix Conversion

/-! ## Derivations -/

/-- The operators that the grammar has at a level: sums at `1`, products at `2` and powers at `3`. -/
def operatorsAt : Nat → List Operator
  | 1 => [.add, .sub]
  | 2 => [.mul, .div, .rem]
  | 3 => [.pow]
  | _ => []

/-- The names that the grammar allows to be called. -/
def functionNames : List String :=
  ["min", "max", "abs", "round", "floor", "ceil", "sqrt", "pow", "log", "exp"]

mutual

/-- The tokens write the expression at a level: `4` is what needs no operator, and below it an operator
of the level groups from the left. -/
inductive Derives : Nat → List Token → Expr → Prop where
  | number (value : Float) : Derives 4 [.number value] (.number value)
  | var (name : String) : Derives 4 [.identifier name] (.var name)
  | paren {tokens : List Token} {e : Expr} :
      Derives 1 tokens e → Derives 4 (.leftParen :: (tokens ++ [.rightParen])) e
  | call {function : String} {tokens : List Token} {args : List Expr} :
      function ∈ functionNames → DerivesArguments tokens args →
      Derives 4 (.identifier function :: .leftParen :: (tokens ++ [.rightParen]))
        (.call function args)
  | callEmpty {function : String} :
      function ∈ functionNames →
      Derives 4 [.identifier function, .leftParen, .rightParen] (.call function [])
  | binary {level : Nat} {op : Operator} {before after : List Token} {left right : Expr} :
      op ∈ operatorsAt level → Derives level before left → Derives (level + 1) after right →
      Derives level (before ++ .operator op :: after) (.binary op left right)
  | tighter {level : Nat} {tokens : List Token} {e : Expr} :
      Derives (level + 1) tokens e → Derives level tokens e

/-- The tokens write expressions with commas between them. -/
inductive DerivesArguments : List Token → List Expr → Prop where
  | last {tokens : List Token} {e : Expr} : Derives 1 tokens e → DerivesArguments tokens [e]
  | more {tokens others : List Token} {e : Expr} {es : List Expr} :
      Derives 1 tokens e → DerivesArguments others es →
      DerivesArguments (tokens ++ .comma :: others) (e :: es)

end

/-- The conversion ranks the operators as the grammar does. -/
theorem mem_operatorsAt_iff {op : Operator} {level : Nat} :
    op ∈ operatorsAt level ↔ op.precedence = level := by
  constructor
  · intro h
    unfold operatorsAt at h
    split at h <;> cases op <;> simp_all [Operator.precedence]
  · rintro rfl
    cases op <;> decide

/-- The functions of the grammar are those that there are. -/
theorem mem_functionNames_iff {function : String} :
    function ∈ functionNames ↔ Builtin.isName function = true := by
  rw [show functionNames = Builtin.all.map Builtin.name from rfl, Builtin.isName, Builtin.ofName?,
    List.find?_isSome, List.mem_map]
  simp only [beq_iff_eq]

/-! ## Reading derived tokens -/

/-- From the output on, the tokens of an expression leave operators of at least a level waiting, and
with these the output has gained the order of the expression. -/
def ReadsAs (level : Nat) (tokens : List Token) (e : Expr) : Prop :=
  ∀ (output : Output) (pending : List Pending) (opened : Bool) (rest : List Token),
    Holds (isTighter level) pending → rest.head? ≠ some .leftParen →
    ∃ (front : Output) (ops : List Operator),
      (∀ op ∈ ops, level ≤ op.precedence) ∧
      front.extend (ops.map .operator) = output.extend e.postorder ∧
      run ⟨output, pending, opened⟩ (tokens ++ rest) =
        run ⟨front, waiting ops ++ pending, false⟩ rest

/-- The tokens of arguments leave their values, one more than the commas counted, and the last of
them has left one value above its mark. -/
def ReadsAsArguments (tokens : List Token) (args : List Expr) : Prop :=
  ∀ (output : Output) (function : String) (commas : Nat) (pending : List Pending) (opened : Bool)
    (rest : List Token), rest.head? ≠ some .leftParen →
    ∃ (front : Output) (ops : List Operator) (count : Nat) (mark : Int),
      commas + args.length = count + 1 ∧
      front.extend (ops.map .operator) = output.extend (Expr.postorderAll args) ∧
      (front.extend (ops.map .operator)).depth - mark = 1 ∧
      run ⟨output, .call function commas output.depth :: pending, opened⟩ (tokens ++ rest) =
        run ⟨front, waiting ops ++ .call function count mark :: pending, false⟩ rest

theorem holds_isTighter_of_lt {level : Nat} {op : Operator} {pending : List Pending}
    (h : op.precedence < level) : Holds (isTighter level) (.operator op :: pending) := by
  intro other rest heq
  obtain ⟨rfl, -⟩ : op = other ∧ pending = rest := by simpa using heq
  exact decide_eq_false (by omega)

theorem holds_isTighter_succ {level : Nat} {pending : List Pending}
    (h : Holds (isTighter level) pending) : Holds (isTighter (level + 1)) pending := by
  intro op rest heq
  have hop : ¬ level ≤ op.precedence := of_decide_eq_false (h op rest heq)
  exact decide_eq_false (by omega)

theorem readsAs_operand {item : Postfix} {token : Token} {e : Expr} (horder : e.postorder = [item])
    (hrun : ∀ (c : Conversion) rest, rest.head? ≠ some .leftParen →
      c.run (token :: rest) = (c.operand item).run rest) : ReadsAs 4 [token] e := by
  intro output pending opened rest _ hrest
  refine ⟨output.push item, [], by simp, ?_, hrun _ rest hrest⟩
  rw [horder]
  rfl

theorem readsAs_paren {tokens : List Token} {e : Expr} (h : ReadsAs 1 tokens e) :
    ReadsAs 4 (.leftParen :: (tokens ++ [.rightParen])) e := by
  intro output pending opened rest _ hrest
  obtain ⟨front, ops, -, hfront, hrun⟩ := h output (.paren :: pending) true (.rightParen :: rest)
    (holds_paren _ _) (by simp)
  refine ⟨output.extend e.postorder, [], by simp, rfl, ?_⟩
  show run ⟨output, .paren :: pending, true⟩ ((tokens ++ [.rightParen]) ++ rest) = _
  rw [List.append_assoc, List.singleton_append, hrun]
  show (close _ >>= fun c => run c rest) = _
  rw [close_paren, hfront]
  rfl

theorem readsAs_call {function : String} {tokens : List Token} {args : List Expr}
    (hname : Builtin.isName function = true) (h : ReadsAsArguments tokens args) :
    ReadsAs 4 (.identifier function :: .leftParen :: (tokens ++ [.rightParen]))
      (.call function args) := by
  intro output pending opened rest _ hrest
  obtain ⟨front, ops, count, mark, hcount, hfront, hdepth, hrun⟩ :=
    h output function 0 pending true (.rightParen :: rest) (by simp)
  refine ⟨output.extend (Expr.call function args).postorder, [], by simp, rfl, ?_⟩
  show (if Builtin.isName function then
      run ⟨output, .call function 0 output.depth :: pending, true⟩ ((tokens ++ [.rightParen]) ++ rest)
    else _) = _
  rw [if_pos hname, List.append_assoc, List.singleton_append, hrun]
  show (close _ >>= fun c => run c rest) = _
  rw [close_call, Output.checkArgument_eq_ok_iff.mpr hdepth, ok_bind, ok_bind, hfront,
    Expr.postorder, Output.extend_concat, show count + 1 = args.length by omega]
  rfl

theorem readsAs_callEmpty {function : String} (hname : Builtin.isName function = true) :
    ReadsAs 4 [.identifier function, .leftParen, .rightParen] (.call function []) := by
  intro output pending opened rest _ hrest
  refine ⟨output.push (.call function 0), [], by simp, rfl, ?_⟩
  show (if Builtin.isName function then _ else _) = _
  rw [if_pos hname]
  rfl

theorem readsAs_binary {level : Nat} {op : Operator} {before after : List Token} {left right : Expr}
    (hop : op ∈ operatorsAt level) (hleft : ReadsAs level before left)
    (hright : ReadsAs (level + 1) after right) :
    ReadsAs level (before ++ .operator op :: after) (.binary op left right) := by
  intro output pending opened rest hpending hrest
  obtain rfl := mem_operatorsAt_iff.mp hop
  obtain ⟨front, ops, hops, hfront, hrun⟩ :=
    hleft output pending opened (.operator op :: (after ++ rest)) hpending (by simp)
  obtain ⟨front', ops', hops', hfront', hrun'⟩ :=
    hright (output.extend left.postorder) (.operator op :: pending) false rest
      (holds_isTighter_of_lt (Nat.lt_succ_self _)) hrest
  refine ⟨front', ops' ++ [op], ?_, ?_, ?_⟩
  · intro top htop
    rcases List.mem_append.mp htop with htop | htop
    · exact Nat.le_of_succ_le (hops' top htop)
    · rw [List.mem_singleton.mp htop]
  · rw [List.map_append, Output.extend_append, hfront', ← Output.extend_append,
      ← Output.extend_append, Expr.postorder, List.append_assoc]
    rfl
  · -- the operator releases everything that the left operand has left waiting
    have htake : ops.takeWhile (isTighter op.precedence) = ops :=
      List.takeWhile_eq_self_iff.mpr fun top htop => decide_eq_true (hops top htop)
    have hdrop : ops.dropWhile (isTighter op.precedence) = [] :=
      List.dropWhile_eq_nil_iff.mpr fun top htop => decide_eq_true (hops top htop)
    rw [List.append_assoc, List.cons_append, hrun]
    show run (operate _ op) _ = _
    rw [operate_waiting hpending, htake, hdrop, hfront, waiting_append, List.append_assoc]
    exact hrun'

theorem readsAs_tighter {level : Nat} {tokens : List Token} {e : Expr}
    (h : ReadsAs (level + 1) tokens e) : ReadsAs level tokens e := by
  intro output pending opened rest hpending hrest
  obtain ⟨front, ops, hops, hfront, hrun⟩ :=
    h output pending opened rest (holds_isTighter_succ hpending) hrest
  exact ⟨front, ops, fun op hop => Nat.le_of_succ_le (hops op hop), hfront, hrun⟩

theorem readsAsArguments_last {tokens : List Token} {e : Expr} (h : ReadsAs 1 tokens e) :
    ReadsAsArguments tokens [e] := by
  intro output function commas pending opened rest hrest
  obtain ⟨front, ops, -, hfront, hrun⟩ :=
    h output (.call function commas output.depth :: pending) opened rest (holds_call _ _ _ _ _) hrest
  refine ⟨front, ops, commas, output.depth, rfl, ?_, ?_, hrun⟩
  · rw [hfront, Expr.postorderAll_singleton]
  · rw [hfront, Output.depth_extend, Expr.height_postorder]
    omega

theorem readsAsArguments_more {tokens others : List Token} {e : Expr} {es : List Expr}
    (h : ReadsAs 1 tokens e) (hothers : ReadsAsArguments others es) :
    ReadsAsArguments (tokens ++ .comma :: others) (e :: es) := by
  intro output function commas pending opened rest hrest
  obtain ⟨front, ops, -, hfront, hrun⟩ :=
    h output (.call function commas output.depth :: pending) opened (.comma :: (others ++ rest))
      (holds_call _ _ _ _ _) (by simp)
  obtain ⟨front', ops', count, mark, hcount, hfront', hdepth, hrun'⟩ :=
    hothers (output.extend e.postorder) function (commas + 1) pending false rest hrest
  refine ⟨front', ops', count, mark, ?_, ?_, hdepth, ?_⟩
  · rw [List.length_cons]
    omega
  · rw [hfront', ← Output.extend_append, Expr.postorderAll]
  · have hcheck : (output.extend e.postorder).checkArgument function output.depth = .ok () := by
      rw [Output.checkArgument_eq_ok_iff, Output.depth_extend, Expr.height_postorder]
      omega
    rw [List.append_assoc, List.cons_append, hrun]
    show (comma _ >>= fun c => run c _) = _
    rw [comma_call, hfront, hcheck, ok_bind, ok_bind]
    exact hrun'

/-- Derived tokens are read as their expression, wherever they stand. -/
theorem readsAs_of_derives {level : Nat} {tokens : List Token} {e : Expr}
    (h : Derives level tokens e) : ReadsAs level tokens e :=
  @Derives.rec (fun level tokens e _ => ReadsAs level tokens e)
    (fun tokens args _ => ReadsAsArguments tokens args)
    (fun _ => readsAs_operand rfl fun _ _ _ => rfl)
    (fun _ => readsAs_operand rfl fun _ _ hrest => run_var hrest)
    (fun _ ih => readsAs_paren ih)
    (fun hname _ ih => readsAs_call (mem_functionNames_iff.mp hname) ih)
    (fun hname => readsAs_callEmpty (mem_functionNames_iff.mp hname))
    (fun hop _ _ ihleft ihright => readsAs_binary hop ihleft ihright)
    (fun _ ih => readsAs_tighter ih)
    (fun _ ih => readsAsArguments_last ih)
    (fun _ _ ih ihothers => readsAsArguments_more ih ihothers)
    level tokens e h

/-- The postfix order of derived tokens is the order of their tree. -/
theorem ofTokens_of_derives {tokens : List Token} {e : Expr} (h : Derives 1 tokens e) :
    Postfix.ofTokens tokens = .ok e.postorder := by
  obtain ⟨front, ops, -, hfront, hrun⟩ :=
    readsAs_of_derives h .empty [] false [] (holds_nil _) (by simp)
  have hstart : Conversion.start.run tokens = .ok ⟨front, waiting ops, false⟩ := by
    rw [List.append_nil, List.append_nil] at hrun
    exact hrun
  rw [Postfix.ofTokens, hstart, ok_bind, finish_operators, hfront, Output.items_extend]
  simp [Output.empty]

/-! ## Top theorem -/

/-- **Derived tokens are read as the tree of their derivation.** -/
theorem ofPostfix_ofTokens_of_derives {tokens : List Token} {e : Expr} (h : Derives 1 tokens e) :
    (Postfix.ofTokens tokens >>= Expr.ofPostfix) = .ok e := by
  rw [ofTokens_of_derives h, ok_bind, Expr.ofPostfix_eq_ok_iff]

open Token in
/-- Powers bind before products and products before sums, operators of one level group from the left,
and redundant parentheses are gone: `2 + 3 * 4 ^ 2 ^ entry - max((low), min())`. -/
theorem ofPostfix_ofTokens_powers_and_calls :
    let tokens : List Token := [number 2, operator .add, number 3, operator .mul, number 4,
      operator .pow, number 2, operator .pow, identifier "entry", operator .sub, identifier "max",
      leftParen, leftParen, identifier "low", rightParen, comma, identifier "min", leftParen,
      rightParen, rightParen]
    let power : Expr := .binary .pow (.binary .pow (.number 4) (.number 2)) (.var "entry")
    let e : Expr := .binary .sub (.binary .add (.number 2) (.binary .mul (.number 3) power))
      (.call "max" [.var "low", .call "min" []])
    Derives 1 tokens e ∧ (Postfix.ofTokens tokens >>= Expr.ofPostfix) = .ok e := by
  intro tokens power e
  have hpower : Derives 3 [number 4, operator .pow, number 2, operator .pow, identifier "entry"]
      power := by
    have hfirst : Derives 3 [number 4, operator .pow, number 2] _ :=
      @Derives.binary 3 .pow [number 4] _ _ _ (by decide) (.tighter (.number 4)) (.number 2)
    exact @Derives.binary 3 .pow _ _ _ _ (by decide) hfirst (.var "entry")
  have hproduct := @Derives.binary 2 .mul _ _ _ _ (by decide) (.tighter (.tighter (.number 3))) hpower
  have hsum := @Derives.binary 1 .add _ _ _ _ (by decide)
    (.tighter (.tighter (.tighter (.number 2)))) hproduct
  have hlow : Derives 1 [leftParen, identifier "low", rightParen] (.var "low") :=
    .tighter (.tighter (.tighter (.paren (.tighter (.tighter (.tighter (.var "low")))))))
  have hmin : Derives 1 [identifier "min", leftParen, rightParen] (.call "min" []) :=
    .tighter (.tighter (.tighter (.callEmpty (by decide))))
  have hmax : Derives 2 [identifier "max", leftParen, leftParen, identifier "low", rightParen, comma,
      identifier "min", leftParen, rightParen, rightParen] (.call "max" [.var "low", .call "min" []]) :=
    .tighter (.tighter (.call (by decide) (.more hlow (.last hmin))))
  have hall : Derives 1 tokens e := @Derives.binary 1 .sub _ _ _ _ (by decide) hsum hmax
  exact ⟨hall, ofPostfix_ofTokens_of_derives hall⟩

end TradePlan
