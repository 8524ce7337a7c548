import TradePlan.Formula.Evaluate
import TradePlan.Proofs.Leaves
import TradePlan.Proofs.Lexing
import TradePlan.Proofs.Stretches

/-!
# The operands of arguments

The tree of a formula has a call for each call that the formula writes.  Whether the arguments of
these calls hold the operands that are written in them is decided argument by argument:

    KeepsLeaves e tokens ↔ StandAlone tokens

If each argument is an expression by itself, the argument of the tree is that expression.  If one is
not, its items take an operand from what stands in front of it, and give it back later.

A stretch and the order of the argument end at the same place.  A proper end of the order of a tree
leaves no value, so the order is an end of the stretch, and what is left of the stretch leaves
none.
-/

namespace TradePlan

open Postfix

/-! ## Related lists -/

theorem exists_of_mem_left {α β : Type} {relation : α → β → Prop} {as : List α} {bs : List β}
    (h : List.Forall₂ relation as bs) {a : α} (ha : a ∈ as) : ∃ b ∈ bs, relation a b := by
  induction h with
  | nil => cases ha
  | @cons a' b as bs hab _ ih =>
    rcases List.mem_cons.mp ha with rfl | ha
    · exact ⟨b, List.mem_cons_self, hab⟩
    · obtain ⟨b', hb', hrel⟩ := ih ha
      exact ⟨b', List.mem_cons_of_mem _ hb', hrel⟩

theorem forall₂_comp {α β γ : Type} {first : α → β → Prop} {second : β → γ → Prop}
    {both : α → γ → Prop} (hboth : ∀ a b c, first a b → second b c → both a c) {as : List α}
    {bs : List β} {cs : List γ} (h : List.Forall₂ first as bs) (h' : List.Forall₂ second bs cs) :
    List.Forall₂ both as cs := by
  induction h generalizing cs with
  | nil =>
    cases h'
    exact .nil
  | cons hab _ ih =>
    obtain ⟨c, cs, hbc, hrest, rfl⟩ := List.forall₂_cons_left_iff.mp h'
    exact .cons (hboth _ _ _ hab hbc) (ih hrest)

theorem forall₂_imp_mem {α β : Type} {first second : α → β → Prop} {as : List α} {bs : List β}
    (h : List.Forall₂ first as bs) (himp : ∀ a ∈ as, ∀ b ∈ bs, first a b → second a b) :
    List.Forall₂ second as bs := by
  refine List.forall₂_iff_zip.mpr ⟨h.length_eq, fun hmem => ?_⟩
  obtain ⟨ha, hb⟩ := List.of_mem_zip hmem
  exact himp _ ha _ hb (List.forall₂_zip h hmem)

theorem forall₂_of_length {α β : Type} {p : β → Prop} {as : List α} {bs : List β}
    (hlength : as.length = bs.length) (h : ∀ b ∈ bs, p b) : List.Forall₂ (fun _ b => p b) as bs :=
  List.forall₂_iff_zip.mpr ⟨hlength, fun hmem => h _ (List.of_mem_zip hmem).2⟩

/-! ## Calls of a tree in its order -/

/-- The point of a call comes right after the order of its arguments. -/
def Builds (point : CallPoint) (call : Call Expr) : Prop :=
  point.function = call.function ∧ point.argc = call.args.length ∧
    ∃ low, point.before = low ++ Expr.postorderAll call.args

theorem builds_postorderAll {args : List Expr}
    (ih : ∀ arg ∈ args, ∀ before, List.Forall₂ Builds (callPoints before arg.postorder) arg.calls)
    (before : List Postfix) :
    List.Forall₂ Builds (callPoints before (Expr.postorderAll args)) (Expr.callsAll args) := by
  induction args generalizing before with
  | nil => exact .nil
  | cons arg args ihargs =>
    rw [Expr.postorderAll, callPoints_append]
    exact List.rel_append (ih arg List.mem_cons_self before)
      (ihargs (fun other h => ih other (List.mem_cons_of_mem _ h)) _)

theorem builds_postorder (e : Expr) (before : List Postfix) :
    List.Forall₂ Builds (callPoints before e.postorder) e.calls := by
  induction e generalizing before with
  | number value => exact .nil
  | var name => exact .nil
  | call function args ih =>
    rw [Expr.postorder, callPoints_append]
    exact List.rel_append (builds_postorderAll ih before) (.cons ⟨rfl, rfl, before, rfl⟩ .nil)
  | binary op left right ihleft ihright =>
    rw [Expr.postorder, callPoints_append, callPoints_append]
    have hop := callPoints_operators (before ++ (left.postorder ++ right.postorder)) [op]
    rw [List.map_singleton] at hop
    rw [hop, List.append_nil]
    exact List.rel_append (ihleft before) (ihright _)

/-- What stands in front of a call are items of the sequence. -/
theorem mem_of_mem_before {before items : List Postfix} {point : CallPoint}
    (h : point ∈ callPoints before items) {item : Postfix} (hitem : item ∈ point.before) :
    item ∈ before ++ items := by
  induction items generalizing before with
  | nil => cases h
  | cons head items ih =>
    have hmove : ∀ {other}, other ∈ (before ++ [head]) ++ items → other ∈ before ++ head :: items :=
      fun hother => by rwa [List.append_assoc, List.singleton_append] at hother
    cases head with
    | number value => exact hmove (ih h)
    | var name => exact hmove (ih h)
    | operator op => exact hmove (ih h)
    | call function argc =>
      rcases List.mem_cons.mp h with rfl | h
      · exact List.mem_append_left _ hitem
      · exact hmove (ih h)

/-- Each call of a sequence has its point. -/
theorem mem_callPoints (before front back : List Postfix) (function : String) (argc : Nat) :
    ⟨before ++ front, function, argc⟩ ∈ callPoints before (front ++ .call function argc :: back) := by
  rw [callPoints_append]
  exact List.mem_append_right _ List.mem_cons_self

/-! ## Leaves and heights -/

theorem height_le_of_leaves {items : List Postfix} (h : leaves items = []) : height items ≤ 0 := by
  induction items with
  | nil => exact Int.le_refl 0
  | cons item items ih =>
    rw [leaves, List.filter_eq_nil_iff] at h
    have hitem := h item List.mem_cons_self
    have hitems := ih (List.filter_eq_nil_iff.mpr fun other hother =>
      h other (List.mem_cons_of_mem _ hother))
    have heffect : item.effect ≤ 0 := by
      cases item with
      | number value => exact absurd rfl hitem
      | var name => exact absurd rfl hitem
      | operator op => exact show (-1 : Int) ≤ 0 by decide
      | call function argc =>
        have hargc : argc ≠ 0 := by simpa [isLeaf] using hitem
        rw [effect]
        omega
    rw [height]
    omega

theorem height_operators {items : List Postfix} (h : ∀ item ∈ items, ∃ op, item = .operator op) :
    height items = -items.length := by
  induction items with
  | nil => rfl
  | cons item items ih =>
    obtain ⟨op, rfl⟩ := h item List.mem_cons_self
    have hitems := ih fun other hother => h other (List.mem_cons_of_mem _ hother)
    rw [height, hitems, List.length_cons, effect]
    omega

/-- In front of a call with arguments there is a leaf. -/
theorem leaves_ne_nil_of_call {tokens : List Token} {front back : List Postfix} {function : String}
    {argc : Nat} (h : ofTokens tokens = .ok (front ++ .call function argc :: back))
    (hargc : argc ≠ 0) : leaves front ≠ [] := by
  obtain ⟨call, -, -, hlength, before, stretches, hfront, hstretches⟩ :=
    exists_of_mem_left (records_ofTokens h) (mem_callPoints [] front back function argc)
  have hcount := hstretches.length_eq
  obtain ⟨stretch, others, rfl⟩ : ∃ stretch others, stretches = stretch :: others := by
    cases stretches with
    | nil => exact absurd (hlength.trans hcount) hargc
    | cons stretch others => exact ⟨stretch, others, rfl⟩
  obtain ⟨argument, args, hstretch, -, -⟩ := List.forall₂_cons_right_iff.mp hstretches
  intro hnone
  have hfront : front = before ++ (stretch ++ others.flatten) := hfront
  rw [hfront, leaves_append, leaves_append, List.append_eq_nil_iff, List.append_eq_nil_iff] at hnone
  have hheight := height_le_of_leaves hnone.2.1
  have hone := hstretch.2
  omega

/-- A beginning of a converted argument without leaves and without height is empty. -/
theorem eq_nil_of_leaves {tokens : List Token} {extra rest : List Postfix}
    (h : ofTokens tokens = .ok (extra ++ rest)) (hleaves : leaves extra = [])
    (hheight : height extra = 0) : extra = [] := by
  have hoperators : ∀ item ∈ extra, ∃ op, item = .operator op := by
    intro item hitem
    have hleaf := List.filter_eq_nil_iff.mp hleaves item hitem
    obtain ⟨front, back, rfl⟩ := List.append_of_mem hitem
    cases item with
    | number value => exact absurd rfl hleaf
    | var name => exact absurd rfl hleaf
    | operator op => exact ⟨op, rfl⟩
    | call function argc =>
      have hargc : argc ≠ 0 := by simpa [isLeaf] using hleaf
      rw [List.append_assoc, List.cons_append] at h
      rw [leaves_append, List.append_eq_nil_iff] at hleaves
      exact absurd hleaves.1 (leaves_ne_nil_of_call h hargc)
  rw [height_operators hoperators] at hheight
  exact List.eq_nil_of_length_eq_zero (by omega)

/-! ## Stretches that are orders of trees -/

/-- Where the order of the expression and the stretch end at the same place, they are equal. -/
def Settled (arg : Expr) (stretch : List Postfix) : Prop :=
  ∀ low front, low ++ arg.postorder = front ++ stretch → stretch = arg.postorder

/-- A stretch of height one ends with the order of the tree that ends at the same place. -/
theorem exists_extra {arg : Expr} {stretch low front : List Postfix} (hheight : height stretch = 1)
    (h : low ++ arg.postorder = front ++ stretch) :
    ∃ extra, stretch = extra ++ arg.postorder ∧ height extra = 0 := by
  have harg := Expr.height_postorder arg
  rcases List.append_eq_append_iff.mp h with ⟨extra, -, heq⟩ | ⟨extra, -, heq⟩
  · -- a proper end of the order has no height left
    by_cases hextra : extra = []
    · subst hextra
      exact ⟨[], heq.symm, rfl⟩
    · have hpos := Expr.height_pos_of_prefix heq hextra
      rw [heq, height_append] at harg
      omega
  · refine ⟨extra, heq, ?_⟩
    rw [heq, height_append] at hheight
    omega

theorem settled_of_postorder (arg e : Expr) : Settled arg e.postorder := by
  intro low front h
  obtain ⟨extra, heq, hheight⟩ := exists_extra (Expr.height_postorder e) h
  by_cases hextra : extra = []
  · rw [heq, hextra, List.nil_append]
  · have hpos := Expr.height_pos_of_prefix heq hextra
    omega

theorem settled_of_leaves {arg : Expr} {argument : List Token} {stretch : List Postfix}
    (hstretch : IsStretch argument stretch)
    (hleaves : leaves arg.postorder = Token.leaves argument) : Settled arg stretch := by
  intro low front h
  obtain ⟨extra, rfl, hheight⟩ := exists_extra hstretch.2 h
  have hnone : leaves extra = [] := by
    rw [← leaves_ofTokens hstretch.1, leaves_append] at hleaves
    exact List.append_left_eq_self.mp hleaves.symm
  rw [eq_nil_of_leaves hstretch.1 hnone hheight, List.nil_append]

theorem postorderAll_eq_flatten (args : List Expr) :
    Expr.postorderAll args = (args.map Expr.postorder).flatten := by
  induction args with
  | nil => rfl
  | cons arg args ih => rw [Expr.postorderAll, ih, List.map_cons, List.flatten_cons]

/-- Stretches that are settled one by one, from the last on, are the orders of the arguments. -/
theorem eq_map_postorder {args : List Expr} {stretches : List (List Postfix)}
    (h : List.Forall₂ Settled args stretches) {low front : List Postfix}
    (heq : low ++ Expr.postorderAll args = front ++ stretches.flatten) :
    stretches = args.map Expr.postorder := by
  induction h generalizing low front with
  | nil => rfl
  | @cons arg stretch args stretches harg _ ih =>
    rw [Expr.postorderAll, List.flatten_cons, ← List.append_assoc, ← List.append_assoc] at heq
    have hothers := ih heq
    rw [hothers, ← postorderAll_eq_flatten, List.append_cancel_right_eq] at heq
    rw [harg low front heq, hothers, List.map_cons]

/-! ## Arguments by themselves -/

/-- The tokens, read by themselves, are the expression. -/
def ReadsAlone (argument : List Token) (e : Expr) : Prop :=
  (ofTokens argument >>= Expr.ofPostfix) = .ok e

theorem readsAlone_iff {argument : List Token} {e : Expr} :
    ReadsAlone argument e ↔ ofTokens argument = .ok e.postorder :=
  Expr.bind_ofPostfix_eq_ok_iff

/-- A call of a tree and a written call that belong to one point of the items. -/
def Correspond (items : List Postfix) (node : Call Expr) (call : Call (List Token)) : Prop :=
  ∃ point ∈ callPoints [] items, Builds point node ∧ Records point call

theorem Correspond.length_eq {items : List Postfix} {node : Call Expr} {call : Call (List Token)}
    (h : Correspond items node call) : node.args.length = call.args.length := by
  obtain ⟨point, -, ⟨-, hnode, -⟩, ⟨-, hcall, -⟩⟩ := h
  rw [← hnode, hcall]

theorem Correspond.function_eq {items : List Postfix} {node : Call Expr}
    {call : Call (List Token)} (h : Correspond items node call) : node.function = call.function := by
  obtain ⟨point, -, ⟨hnode, -⟩, ⟨hcall, -⟩⟩ := h
  rw [← hnode, hcall]

/-- Arguments that settle their stretches are those that are written. -/
theorem Correspond.matches_of_settled {items : List Postfix} {node : Call Expr}
    {call : Call (List Token)} {relation : Expr → List Token → Prop}
    (hsettled : ∀ arg argument stretch, relation arg argument → IsStretch argument stretch →
      Settled arg stretch)
    (h : Correspond items node call) (hargs : List.Forall₂ relation node.args call.args) :
    node.Matches (fun arg argument => ReadsAlone argument arg) call := by
  have hfunction := h.function_eq
  obtain ⟨point, -, ⟨-, -, low, hlow⟩, ⟨-, -, front, stretches, hfront, hstretches⟩⟩ := h
  have heq := eq_map_postorder (forall₂_comp hsettled hargs hstretches) (hlow.symm.trans hfront)
  rw [heq] at hstretches
  refine ⟨hfunction, ?_⟩
  refine (List.forall₂_map_right_iff.mp hstretches).flip.imp fun arg argument hstretch => ?_
  exact readsAlone_iff.mpr hstretch.1

/-! ## Whole formulas -/

/-- Every argument that is written is an expression by itself. -/
def StandAlone (tokens : List Token) : Prop :=
  ∀ call ∈ writtenCalls tokens, ∀ argument ∈ call.args, ∃ e, ReadsAlone argument e

/-- The arguments of the tree are the written ones, read by themselves. -/
def ReadsArguments (e : Expr) (tokens : List Token) : Prop :=
  List.Forall₂ (Call.Matches fun arg argument => ReadsAlone argument arg) e.calls
    (writtenCalls tokens)

/-- The arguments of the tree hold the leaves of the written ones: numbers, variables and calls
without arguments. -/
def KeepsLeaves (e : Expr) (tokens : List Token) : Prop :=
  List.Forall₂ (Call.Matches fun arg argument => leaves arg.postorder = Token.leaves argument)
    e.calls (writtenCalls tokens)

/-- The numbers and variables among items. -/
def operands (items : List Postfix) : List Postfix := items.filter fun item => item.token?.isSome

/-- The arguments of the tree hold the numbers and variables of the written ones. -/
def KeepsOperands (e : Expr) (tokens : List Token) : Prop :=
  List.Forall₂
    (Call.Matches fun arg argument => operands arg.postorder = operands (Token.leaves argument))
    e.calls (writtenCalls tokens)

section

variable {e : Expr} {tokens : List Token}

/-- The calls of the tree and the written ones belong together, in the order in which they end. -/
theorem correspond_of_ofTokens (h : ofTokens tokens = .ok e.postorder) :
    List.Forall₂ (Correspond e.postorder) e.calls (writtenCalls tokens) := by
  have hrecords : List.Forall₂ (fun point call => point ∈ callPoints [] e.postorder ∧
      Records point call) (callPoints [] e.postorder) (writtenCalls tokens) :=
    forall₂_imp_mem (records_ofTokens h) fun point hpoint _ _ hcall => ⟨hpoint, hcall⟩
  exact forall₂_comp (fun _ point _ hbuilds hcall => ⟨point, hcall.1, hbuilds, hcall.2⟩)
    (builds_postorder e []).flip hrecords

theorem matches_imp {α β : Type} {first second : α → β → Prop} (himp : ∀ a b, first a b → second a b)
    {as : List (Call α)} {bs : List (Call β)} (h : List.Forall₂ (Call.Matches first) as bs) :
    List.Forall₂ (Call.Matches second) as bs :=
  h.imp fun _ _ hcall => ⟨hcall.1, hcall.2.imp himp⟩

/-- What holds of the written arguments holds along with those of the tree. -/
theorem matches_of_forall (h : ofTokens tokens = .ok e.postorder) {p : List Token → Prop}
    (hp : ∀ call ∈ writtenCalls tokens, ∀ argument ∈ call.args, p argument) :
    List.Forall₂ (Call.Matches fun _ argument => p argument) e.calls (writtenCalls tokens) :=
  forall₂_imp_mem (correspond_of_ofTokens h) fun _ _ call hcall hcorrespond =>
    ⟨hcorrespond.function_eq, forall₂_of_length hcorrespond.length_eq (hp call hcall)⟩

theorem readsArguments_of_settled (h : ofTokens tokens = .ok e.postorder)
    {relation : Expr → List Token → Prop}
    (hsettled : ∀ arg argument stretch, relation arg argument → IsStretch argument stretch →
      Settled arg stretch)
    (hargs : List.Forall₂ (Call.Matches relation) e.calls (writtenCalls tokens)) :
    ReadsArguments e tokens :=
  (correspond_of_ofTokens h).mp
    (fun _ _ hcorrespond hcall => hcorrespond.matches_of_settled hsettled hcall.2) hargs

theorem readsArguments_of_standAlone (h : ofTokens tokens = .ok e.postorder)
    (halone : StandAlone tokens) : ReadsArguments e tokens := by
  refine readsArguments_of_settled h ?_ (matches_of_forall h halone)
  rintro arg argument stretch ⟨tree, htree⟩ hstretch
  obtain rfl := Except.ok.inj (hstretch.1.symm.trans (readsAlone_iff.mp htree))
  exact settled_of_postorder arg tree

theorem readsArguments_of_keepsLeaves (h : ofTokens tokens = .ok e.postorder)
    (hkeeps : KeepsLeaves e tokens) : ReadsArguments e tokens :=
  readsArguments_of_settled h (fun _ _ _ hleaves hstretch => settled_of_leaves hstretch hleaves)
    hkeeps

theorem standAlone_of_readsArguments (h : ReadsArguments e tokens) : StandAlone tokens := by
  intro call hcall argument hargument
  obtain ⟨node, -, hnode⟩ := exists_of_mem_left h.flip hcall
  obtain ⟨arg, -, harg⟩ := exists_of_mem_left hnode.2.flip hargument
  exact ⟨arg, harg⟩

theorem keepsLeaves_of_readsArguments (h : ReadsArguments e tokens) : KeepsLeaves e tokens :=
  matches_imp (fun _ _ harg => leaves_ofTokens (readsAlone_iff.mp harg)) h

/-! ### Numbers and variables -/

theorem operands_leaves (items : List Postfix) : operands (leaves items) = operands items := by
  rw [operands, operands, leaves, List.filter_filter]
  refine List.filter_congr fun item _ => ?_
  cases item <;> rfl

theorem keepsOperands_of_keepsLeaves (h : KeepsLeaves e tokens) : KeepsOperands e tokens :=
  matches_imp (fun arg _ hleaves => by rw [← hleaves, operands_leaves]) h

/-- Without calls that have no arguments, the leaves are numbers and variables. -/
theorem leaves_eq_operands {items : List Postfix} (h : ∀ function, .call function 0 ∉ items) :
    leaves items = operands items := by
  refine List.filter_congr fun item hitem => ?_
  cases item with
  | number value => rfl
  | var name => rfl
  | operator op => rfl
  | call function argc =>
    cases argc with
    | zero => exact absurd hitem (h function)
    | succ argc => rfl

theorem call_notMem_of_args (h : ofTokens tokens = .ok e.postorder)
    (hargs : ∀ call ∈ writtenCalls tokens, call.args ≠ []) (function : String) :
    .call function 0 ∉ e.postorder := by
  intro hmem
  obtain ⟨front, back, hsplit⟩ := List.append_of_mem hmem
  have hpoint := mem_callPoints [] front back function 0
  rw [← hsplit] at hpoint
  obtain ⟨call, hcall, -, hlength, -⟩ := exists_of_mem_left (records_ofTokens h) hpoint
  exact hargs call hcall (List.eq_nil_of_length_eq_zero hlength.symm)

theorem keepsLeaves_of_keepsOperands (h : ofTokens tokens = .ok e.postorder)
    (hargs : ∀ call ∈ writtenCalls tokens, call.args ≠ []) (hkeeps : KeepsOperands e tokens) :
    KeepsLeaves e tokens := by
  have hnone := call_notMem_of_args h hargs
  refine (correspond_of_ofTokens h).mp ?_ hkeeps
  rintro node call ⟨point, hpoint, ⟨-, -, low, hlow⟩, ⟨-, -, front, stretches, hfront, hstretches⟩⟩
    ⟨hfunction, hoperands⟩
  have hitems : ∀ item ∈ point.before, item ∈ e.postorder := fun item hitem =>
    mem_of_mem_before hpoint hitem
  refine ⟨hfunction, forall₂_imp_mem hoperands fun arg harg argument hargument heq => ?_⟩
  obtain ⟨stretch, hstretch, hstands⟩ := exists_of_mem_left hstretches hargument
  have htree : leaves arg.postorder = operands arg.postorder := by
    refine leaves_eq_operands fun function hcall => hnone function (hitems _ ?_)
    rw [hlow]
    exact List.mem_append_right _ (Expr.mem_postorderAll.mpr ⟨arg, harg, hcall⟩)
  have hwritten : leaves stretch = operands stretch := by
    refine leaves_eq_operands fun function hcall => hnone function (hitems _ ?_)
    rw [hfront]
    exact List.mem_append_right _ (List.mem_flatten.mpr ⟨stretch, hstretch, hcall⟩)
  rw [htree, heq, ← leaves_ofTokens hstands.1, operands_leaves, hwritten]

end

/-! ## Top theorem -/

/-- **Arguments keep to their operands if each of them is an expression by itself.**  The calls of
the tree are those that are written, in the order in which they end.  Their arguments hold what is
written in them exactly when every written argument stands alone, and are then what it is alone; if
no call is written without arguments, it is enough to look at numbers and variables. -/
theorem keepsLeaves_iff_standAlone {formula : String} {tokens : List Token} {e : Expr}
    (htokens : Formula.tokens formula = .ok tokens) (hparse : Formula.parse formula = .ok e) :
    List.Forall₂ (Call.Matches fun _ _ => True) e.calls (writtenCalls tokens) ∧
    (KeepsLeaves e tokens ↔ StandAlone tokens) ∧
    (StandAlone tokens → ReadsArguments e tokens ∧ KeepsOperands e tokens) ∧
    ((∀ call ∈ writtenCalls tokens, call.args ≠ []) → KeepsOperands e tokens →
      StandAlone tokens) := by
  have horder : ofTokens tokens = .ok e.postorder := by
    rw [Formula.parse, htokens, ok_bind] at hparse
    exact Expr.bind_ofPostfix_eq_ok_iff.mp hparse
  refine ⟨matches_of_forall horder (by simp), ⟨fun hkeeps => ?_, fun halone => ?_⟩, fun halone => ?_,
    fun hargs hkeeps => ?_⟩
  · exact standAlone_of_readsArguments (readsArguments_of_keepsLeaves horder hkeeps)
  · exact keepsLeaves_of_readsArguments (readsArguments_of_standAlone horder halone)
  · have hreads := readsArguments_of_standAlone horder halone
    exact ⟨hreads, keepsOperands_of_keepsLeaves (keepsLeaves_of_readsArguments hreads)⟩
  · have hleaves := keepsLeaves_of_keepsOperands horder hargs hkeeps
    exact standAlone_of_readsArguments (readsArguments_of_keepsLeaves horder hleaves)

open Token in
/-- Both arguments of `max(2,entry)` stand alone. -/
theorem keepsLeaves_iff_standAlone_max :
    Formula.tokens "max(2,entry)" =
      .ok [identifier "max", leftParen, number 2, comma, identifier "entry", rightParen] ∧
    Formula.parse "max(2,entry)" = .ok (.call "max" [.number 2, .var "entry"]) ∧
    StandAlone [identifier "max", leftParen, number 2, comma, identifier "entry", rightParen] ∧
    KeepsOperands (.call "max" [.number 2, .var "entry"])
      [identifier "max", leftParen, number 2, comma, identifier "entry", rightParen] := by
  have htokens : Formula.tokens "max(2,entry)" =
      .ok [identifier "max", leftParen, number 2, comma, identifier "entry", rightParen] := by
    have hclose := @reads_sign ')' rightParen (by decide) rfl _ _ reads_nil
    have hentry := @reads_name "entry" (by decide) _ (ends_cons (by decide) (by decide)) _ hclose
    have hcomma := @reads_sign ',' comma (by decide) rfl _ _ hentry
    have htwo := @reads_lexeme 2 ['2'] (by decide +kernel) (by decide +kernel) _
      (ends_cons (by decide) (by decide)) _ hcomma
    have hopen := @reads_sign '(' leftParen (by decide) rfl _ _ htwo
    have hmax := @reads_name "max" (by decide) _ (ends_cons (by decide) (by decide)) _ hopen
    exact tokens_of_reads hmax (by decide) (by decide) (by decide)
  have hparse : Formula.parse "max(2,entry)" = .ok (.call "max" [.number 2, .var "entry"]) := by
    rw [Formula.parse, htokens]
    rfl
  have halone : StandAlone
      [identifier "max", leftParen, number 2, comma, identifier "entry", rightParen] := by
    intro call hcall argument hargument
    obtain rfl : call = ⟨"max", [[number 2], [identifier "entry"]]⟩ := List.mem_singleton.mp hcall
    rcases List.mem_pair.mp hargument with rfl | rfl
    · exact ⟨.number 2, rfl⟩
    · exact ⟨.var "entry", rfl⟩
  exact ⟨htokens, hparse, halone,
    ((keepsLeaves_iff_standAlone htokens hparse).2.2.1 halone).2⟩

open Token in
/-- The second argument of `max(1, *2+3 4)` does not stand alone: its product takes the `1` of the
first argument, and the first argument of the tree has the `2` of the second. -/
theorem keepsOperands_fails_max :
    Formula.tokens "max(1, *2+3 4)" = .ok [identifier "max", leftParen, number 1, comma,
      operator .mul, number 2, operator .add, number 3, number 4, rightParen] ∧
    Formula.parse "max(1, *2+3 4)" = .ok (.call "max" [.binary .mul (.number 1) (.number 2),
      .binary .add (.number 3) (.number 4)]) ∧
    writtenCalls [identifier "max", leftParen, number 1, comma, operator .mul, number 2,
        operator .add, number 3, number 4, rightParen] =
      [⟨"max", [[number 1], [operator .mul, number 2, operator .add, number 3, number 4]]⟩] ∧
    ¬ KeepsOperands
      (.call "max" [.binary .mul (.number 1) (.number 2), .binary .add (.number 3) (.number 4)])
      [identifier "max", leftParen, number 1, comma, operator .mul, number 2, operator .add,
        number 3, number 4, rightParen] := by
  have htokens : Formula.tokens "max(1, *2+3 4)" = .ok [identifier "max", leftParen, number 1,
      comma, operator .mul, number 2, operator .add, number 3, number 4, rightParen] := by
    have one := @reads_lexeme 1 ['1'] (by decide +kernel) (by decide +kernel)
    have two := @reads_lexeme 2 ['2'] (by decide +kernel) (by decide +kernel)
    have three := @reads_lexeme 3 ['3'] (by decide +kernel) (by decide +kernel)
    have four := @reads_lexeme 4 ['4'] (by decide +kernel) (by decide +kernel)
    have hclose := @reads_sign ')' rightParen (by decide) rfl _ _ reads_nil
    have hfour := reads_space (four (ends_cons (by decide) (by decide)) hclose)
    have hsum := @reads_sign '+' (operator .add) (by decide) rfl _ _
      (three (ends_cons (by decide) (by decide)) hfour)
    have hproduct := @reads_sign '*' (operator .mul) (by decide) rfl _ _
      (two (ends_cons (by decide) (by decide)) hsum)
    have hcomma := @reads_sign ',' comma (by decide) rfl _ _ (reads_space hproduct)
    have hopen := @reads_sign '(' leftParen (by decide) rfl _ _
      (one (ends_cons (by decide) (by decide)) hcomma)
    have hmax := @reads_name "max" (by decide) _ (ends_cons (by decide) (by decide)) _ hopen
    exact tokens_of_reads hmax (by decide) (by decide) (by decide)
  refine ⟨htokens, ?_, rfl, fun hkeeps => ?_⟩
  · rw [Formula.parse, htokens]
    rfl
  · obtain ⟨⟨-, hargs⟩, -⟩ := List.forall₂_cons.mp hkeeps
    have hlength := congrArg List.length (List.forall₂_cons.mp hargs).1
    revert hlength
    decide

end TradePlan
