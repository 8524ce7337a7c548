import TradePlan.Formula.Expr
import TradePlan.Proofs.Outcome

/-!
# Trees and their postfix order

The postfix order of a tree, and the proof that building a tree from a postfix sequence undoes it:

    Expr.ofPostfix items = .ok e ↔ items = e.postorder                  (ofPostfix_eq_ok_iff)

A run of any interpretation leaves as many values as the height of the sequence says, so the order
of a tree has height one, and each of its beginnings has a positive height.  The orders of trees are
told from other sequences by counting alone:

    Postfix.isWhole items = true ↔ ∃ e, items = e.postorder             (isWhole_iff_postorder)
-/

namespace TradePlan

namespace Expr

/-! ## The order -/

mutual

/-- The items of an expression, operands before their operator and arguments before their call. -/
def postorder : Expr → List Postfix
  | .number value => [.number value]
  | .var name => [.var name]
  | .call function args => postorderAll args ++ [.call function args.length]
  | .binary op left right => left.postorder ++ right.postorder ++ [.operator op]

def postorderAll : List Expr → List Postfix
  | [] => []
  | arg :: args => arg.postorder ++ postorderAll args

end

/-- Induction on expressions, with the hypothesis for every argument of a call. -/
@[induction_eliminator, elab_as_elim]
theorem inductionOn {motive : Expr → Prop} (e : Expr)
    (number : ∀ value, motive (.number value)) (var : ∀ name, motive (.var name))
    (call : ∀ function args, (∀ arg ∈ args, motive arg) → motive (.call function args))
    (binary : ∀ op left right, motive left → motive right → motive (.binary op left right)) :
    motive e := by
  apply @Expr.rec motive fun args => ∀ arg ∈ args, motive arg
  · exact number
  · exact var
  · exact call
  · exact binary
  · simp
  · intro arg args harg hargs other hother
    rcases List.mem_cons.mp hother with rfl | hother
    · exact harg
    · exact hargs other hother

theorem postorderAll_append (es ds : List Expr) :
    postorderAll (es ++ ds) = postorderAll es ++ postorderAll ds := by
  induction es with
  | nil => rfl
  | cons e es ih => simp only [List.cons_append, postorderAll, ih, List.append_assoc]

theorem postorderAll_singleton (e : Expr) : postorderAll [e] = e.postorder := by
  simp only [postorderAll, List.append_nil]

theorem mem_postorderAll {item : Postfix} {es : List Expr} :
    item ∈ postorderAll es ↔ ∃ e ∈ es, item ∈ e.postorder := by
  induction es with
  | nil => simp [postorderAll]
  | cons e es ih => simp [postorderAll, ih]

end Expr

/-! ## Heights -/

namespace Postfix

theorem height_append (items others : List Postfix) :
    height (items ++ others) = height items + height others := by
  induction items with
  | nil => simp [height]
  | cons item items ih =>
    simp only [List.cons_append, height, ih]
    omega

theorem height_singleton (item : Postfix) : height [item] = item.effect := by
  simp [height]

def takes : Postfix → Nat
  | number _ | var _ => 0
  | operator _ => 2
  | call _ argc => argc

end Postfix

namespace Interpretation

variable {α : Type} {meaning : Interpretation α}

/-- A call of a known function, with the count of values that it needs. -/
theorem step_call {function : String} {body : List α → Except FormulaError α}
    (h : meaning.call function = .ok body) (stack : List α) (argc : Nat) :
    meaning.step stack (.call function argc) =
      if stack.length < argc then .error (.malformed (.missingArguments function argc))
      else body (stack.take argc).reverse >>= fun value => .ok (value :: stack.drop argc) := by
  have few : (stack.take argc).length < argc ↔ stack.length < argc := by
    rw [List.length_take]
    omega
  simp only [step, h, ok_bind, few]
  rfl

/-- An item leaves the stack higher by its effect, and never empty. -/
theorem step_length {stack after : List α} {item : Postfix}
    (h : meaning.step stack item = .ok after) :
    (after.length : Int) = stack.length + item.effect ∧ after ≠ [] := by
  cases item with
  | number value =>
    obtain rfl : _ = after := Except.ok.inj h
    exact ⟨rfl, List.cons_ne_nil _ _⟩
  | var name =>
    obtain ⟨value, -, h⟩ := bind_eq_ok_iff.mp h
    obtain rfl : _ = after := Except.ok.inj h
    exact ⟨rfl, List.cons_ne_nil _ _⟩
  | operator op =>
    match stack with
    | [] => cases h
    | [a] => cases h
    | b :: a :: rest =>
      obtain ⟨value, -, h⟩ := bind_eq_ok_iff.mp h
      obtain rfl : _ = after := Except.ok.inj h
      refine ⟨?_, List.cons_ne_nil _ _⟩
      simp only [Postfix.effect, List.length_cons]
      omega
  | call function argc =>
    obtain ⟨body, hbody, -⟩ := bind_eq_ok_iff.mp h
    rw [step_call hbody] at h
    split at h
    · cases h
    · next enough =>
      obtain ⟨value, -, h⟩ := bind_eq_ok_iff.mp h
      obtain rfl : _ = after := Except.ok.inj h
      refine ⟨?_, List.cons_ne_nil _ _⟩
      simp only [Postfix.effect, List.length_cons, List.length_drop]
      omega

/-- A run leaves the stack higher by the height of the sequence. -/
theorem foldlM_length {items : List Postfix} {stack after : List α}
    (h : items.foldlM meaning.step stack = .ok after) :
    (after.length : Int) = stack.length + Postfix.height items := by
  induction items generalizing stack with
  | nil =>
    obtain rfl : stack = after := Except.ok.inj h
    simp [Postfix.height]
  | cons item items ih =>
    rw [List.foldlM_cons] at h
    obtain ⟨between, hs, h⟩ := bind_eq_ok_iff.mp h
    have hitem := (step_length hs).1
    have hitems := ih h
    rw [Postfix.height]
    omega

end Interpretation

/-! ## Building a tree -/

namespace Expr

/-- The order of a tree, run on any stack, puts the tree on top. -/
theorem foldlM_postorder (e : Expr) (stack : List Expr) :
    e.postorder.foldlM trees.step stack = .ok (e :: stack) := by
  induction e generalizing stack with
  | number value => rfl
  | var name => rfl
  | call function args ih =>
    have hargs : ∀ stack, (postorderAll args).foldlM trees.step stack = .ok (args.reverse ++ stack) := by
      induction args with
      | nil => intro stack; rfl
      | cons arg args ihargs =>
        intro stack
        rw [postorderAll, List.foldlM_append, ih arg List.mem_cons_self, ok_bind,
          ihargs fun other h => ih other (List.mem_cons_of_mem _ h)]
        simp
    rw [postorder, List.foldlM_append, hargs, ok_bind, List.foldlM_cons,
      Interpretation.step_call rfl, if_neg (by simp), ← List.length_reverse, List.take_left,
      List.drop_left, List.reverse_reverse]
    rfl
  | binary op left right ihleft ihright =>
    rw [postorder, List.foldlM_append, List.foldlM_append, ihleft, ok_bind, ihright, ok_bind]
    rfl

/-- The items read so far are those of the trees on the stack. -/
theorem postorderAll_of_step {stack after : List Expr} {item : Postfix}
    (h : trees.step stack item = .ok after) :
    postorderAll after.reverse = postorderAll stack.reverse ++ [item] := by
  cases item with
  | number value =>
    obtain rfl : _ = after := Except.ok.inj h
    rw [List.reverse_cons, postorderAll_append]
    rfl
  | var name =>
    obtain rfl : _ = after := Except.ok.inj h
    rw [List.reverse_cons, postorderAll_append]
    rfl
  | operator op =>
    match stack with
    | [] => cases h
    | [a] => cases h
    | right :: left :: rest =>
      obtain rfl : _ = after := Except.ok.inj h
      simp only [List.reverse_cons, postorderAll_append, postorderAll_singleton, postorder,
        List.append_assoc]
  | call function argc =>
    rw [Interpretation.step_call rfl] at h
    split at h
    · cases h
    · next enough =>
      obtain rfl : _ = after := Except.ok.inj h
      have hlen : (stack.take argc).reverse.length = argc := by
        rw [List.length_reverse, List.length_take]
        omega
      calc postorderAll ((.call function (stack.take argc).reverse) :: stack.drop argc).reverse
          = postorderAll (stack.drop argc).reverse ++ postorderAll (stack.take argc).reverse
              ++ [.call function argc] := by
            rw [List.reverse_cons, postorderAll_append, postorderAll_singleton, postorder, hlen,
              List.append_assoc]
        _ = postorderAll stack.reverse ++ [.call function argc] := by
            rw [← postorderAll_append, ← List.reverse_append, List.take_append_drop]

theorem postorderAll_of_foldlM {items : List Postfix} {stack after : List Expr}
    (h : items.foldlM trees.step stack = .ok after) :
    postorderAll after.reverse = postorderAll stack.reverse ++ items := by
  induction items generalizing stack with
  | nil =>
    obtain rfl : stack = after := Except.ok.inj h
    rw [List.append_nil]
  | cons item items ih =>
    rw [List.foldlM_cons] at h
    obtain ⟨between, hs, h⟩ := bind_eq_ok_iff.mp h
    rw [ih h, postorderAll_of_step hs, List.append_assoc, List.singleton_append]

/-- A sequence builds a tree if it is the order of that tree. -/
theorem ofPostfix_eq_ok_iff {items : List Postfix} {e : Expr} :
    ofPostfix items = .ok e ↔ items = e.postorder := by
  constructor
  · intro h
    obtain ⟨stack, hs, h⟩ := bind_eq_ok_iff.mp h
    have hall := postorderAll_of_foldlM hs
    match stack with
    | [] => cases h
    | [value] =>
      obtain rfl : value = e := Except.ok.inj h
      rw [List.reverse_singleton, postorderAll_singleton] at hall
      exact hall.symm
    | _ :: _ :: _ => cases h
  · rintro rfl
    rw [ofPostfix, Interpretation.run, foldlM_postorder]
    rfl

theorem bind_ofPostfix_eq_ok_iff {order : Except FormulaError (List Postfix)} {e : Expr} :
    (order >>= ofPostfix) = .ok e ↔ order = .ok e.postorder := by
  rw [bind_eq_ok_iff]
  simp only [ofPostfix_eq_ok_iff, exists_eq_right]

/-- An item builds a tree in place of those that it takes, or finds too few of them. -/
theorem trees_step_cases (stack : List Expr) (item : Postfix) :
    (item.takes ≤ stack.length ∧ ∃ after, trees.step stack item = .ok after ∧
      after.length = stack.length - item.takes + 1) ∨
    (stack.length < item.takes ∧ ∃ shape, trees.step stack item = .error (.malformed shape)) := by
  cases item with
  | number value => exact .inl ⟨Nat.zero_le _, _, rfl, rfl⟩
  | var name => exact .inl ⟨Nat.zero_le _, _, rfl, rfl⟩
  | operator op =>
    match stack with
    | [] => exact .inr ⟨Nat.zero_lt_two, _, rfl⟩
    | [_] => exact .inr ⟨Nat.one_lt_two, _, rfl⟩
    | right :: left :: rest => exact .inl ⟨Nat.le_add_left _ _, _, rfl, rfl⟩
  | call function argc =>
    rw [Interpretation.step_call rfl]
    split
    · next few => exact .inr ⟨few, _, rfl⟩
    · next enough =>
      refine .inl ⟨Nat.not_lt.mp enough, _, rfl, ?_⟩
      rw [List.length_cons, List.length_drop]
      rfl

/-- A sequence that builds no tree lacks values or leaves too many. -/
theorem ofPostfix_error {items : List Postfix} {fault : FormulaError}
    (h : ofPostfix items = .error fault) : ∃ shape, fault = .malformed shape := by
  rw [ofPostfix, Interpretation.run] at h
  generalize ([] : List Expr) = stack at h
  induction items generalizing stack with
  | nil =>
    match stack with
    | [] => exact ⟨_, (Except.error.inj h).symm⟩
    | [_] => cases h
    | _ :: _ :: _ => exact ⟨_, (Except.error.inj h).symm⟩
  | cons item items ih =>
    rw [List.foldlM_cons] at h
    rcases trees_step_cases stack item with ⟨-, next, hs, -⟩ | ⟨-, shape, hs⟩
    · rw [hs] at h
      exact ih next h
    · rw [hs] at h
      exact ⟨shape, (Except.error.inj h).symm⟩

/-! ## Heights of trees -/

theorem height_postorder (e : Expr) : Postfix.height e.postorder = 1 := by
  have h := Interpretation.foldlM_length (foldlM_postorder e [])
  simp only [List.length_cons, List.length_nil] at h
  omega

/-- A beginning of the order of a tree leaves a value. -/
theorem height_pos_of_prefix {e : Expr} {front back : List Postfix}
    (h : e.postorder = front ++ back) (hne : front ≠ []) : 1 ≤ Postfix.height front := by
  have hrun := foldlM_postorder e []
  rw [h, List.foldlM_append] at hrun
  obtain ⟨stack, hfront, -⟩ := bind_eq_ok_iff.mp hrun
  have hlen := Interpretation.foldlM_length hfront
  obtain ⟨items, item, rfl⟩ : ∃ items item, front = items ++ [item] :=
    ⟨_, _, (List.dropLast_concat_getLast hne).symm⟩
  rw [List.foldlM_append] at hfront
  obtain ⟨between, -, hlast⟩ := bind_eq_ok_iff.mp hfront
  rw [List.foldlM_cons] at hlast
  obtain ⟨after, hitem, hlast⟩ := bind_eq_ok_iff.mp hlast
  obtain rfl : after = stack := Except.ok.inj hlast
  have hpos := List.length_pos_iff.mpr (Interpretation.step_length hitem).2
  simp only [List.length_nil] at hlen
  omega

end Expr

/-! ## Counting values -/

namespace Postfix

/-- Whether a sequence in front of which there are `count` values comes to one value: each item finds
the values that it takes and leaves one in their place. -/
def isWholeFrom : (count : Nat) → List Postfix → Bool
  | count, [] => count == 1
  | count, item :: items => decide (item.takes ≤ count) && isWholeFrom (count - item.takes + 1) items

def isWhole (items : List Postfix) : Bool := isWholeFrom 0 items

end Postfix

namespace Expr

/-- A run on a stack of trees comes to one tree if the counts say so. -/
theorem exists_tree_iff_isWholeFrom (items : List Postfix) (stack : List Expr) :
    (∃ e, items.foldlM trees.step stack >>= Interpretation.single = .ok e) ↔
      Postfix.isWholeFrom stack.length items = true := by
  induction items generalizing stack with
  | nil =>
    match stack with
    | [] => simp [Interpretation.single, Postfix.isWholeFrom]
    | [e] => exact ⟨fun _ => rfl, fun _ => ⟨e, rfl⟩⟩
    | _ :: _ :: rest => simp [Interpretation.single, Postfix.isWholeFrom]
  | cons item items ih =>
    rw [List.foldlM_cons, Postfix.isWholeFrom, Bool.and_eq_true, decide_eq_true_iff]
    rcases trees_step_cases stack item with ⟨henough, after, hstep, hlen⟩ | ⟨hfew, shape, hstep⟩
    · rw [hstep, ok_bind, ih after, hlen]
      exact ⟨fun h => ⟨henough, h⟩, And.right⟩
    · rw [hstep, error_bind, error_bind]
      constructor
      · rintro ⟨e, h⟩
        cases h
      · exact fun h => absurd h.1 (Nat.not_le.mpr hfew)

/-- The sequences that come to one value are the orders of trees. -/
theorem isWhole_iff_postorder {items : List Postfix} :
    Postfix.isWhole items = true ↔ ∃ e : Expr, items = e.postorder := by
  rw [Postfix.isWhole, ← @List.length_nil Expr, ← exists_tree_iff_isWholeFrom]
  exact exists_congr fun e => ofPostfix_eq_ok_iff

/-- A call without arguments takes no value and a product two, which have to stand in front of it. -/
example : Postfix.isWhole [.var "low", .call "max" 0, .operator .mul] = true ∧
    Postfix.isWhole [.var "low", .operator .mul, .number 1] = false := by decide

/-! ## Top theorem -/

/-- **Building a tree undoes the order of the tree.**  A sequence builds the tree whose order it is, and
only that; it fails if it is the order of no tree, which counting its values decides; and no tree is
built from two sequences, nor are two trees listed by one. -/
theorem ofPostfix_undoes_postorder (items : List Postfix) :
    (∀ e, ofPostfix items = .ok e ↔ items = e.postorder) ∧
    ((∃ shape, ofPostfix items = .error (.malformed shape)) ↔ ∀ e : Expr, items ≠ e.postorder) ∧
    ((∀ e : Expr, items ≠ e.postorder) ↔ Postfix.isWhole items = false) ∧
    (∀ others e, ofPostfix items = .ok e → ofPostfix others = .ok e → items = others) ∧
    ∀ e d : Expr, items = e.postorder → items = d.postorder → e = d := by
  refine ⟨fun e => ofPostfix_eq_ok_iff, ⟨?_, fun hnone => ?_⟩, ?_, fun others e h hothers => ?_,
    fun e d he hd => ?_⟩
  · rintro ⟨shape, hfail⟩ e he
    rw [ofPostfix_eq_ok_iff.mpr he] at hfail
    cases hfail
  · cases h : ofPostfix items with
    | ok e => exact absurd (ofPostfix_eq_ok_iff.mp h) (hnone e)
    | error fault =>
      obtain ⟨shape, rfl⟩ := ofPostfix_error h
      exact ⟨shape, rfl⟩
  · rw [← Bool.not_eq_true, isWhole_iff_postorder, not_exists]
  · rw [ofPostfix_eq_ok_iff.mp h, ofPostfix_eq_ok_iff.mp hothers]
  · have h := (ofPostfix_eq_ok_iff.mpr he).symm.trans (ofPostfix_eq_ok_iff.mpr hd)
    exact Except.ok.inj h

end Expr

end TradePlan
