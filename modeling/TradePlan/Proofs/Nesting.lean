import TradePlan.Proofs.Postorder
import TradePlan.Proofs.Steps

/-!
# Conversions inside a call

What happens inside an open call does not depend on what was there before it.  A conversion `inner`
that starts at the opening of a call is found again `above` the output and the pending brackets of
the moment, and goes the same steps there as alone, until its call is closed or ends an argument:

    Step (inner.above base outer) consumed rest next →
      ∃ after, Step inner consumed rest after ∧ next = after.above base outer
-/

namespace TradePlan.Postfix

/-! ## Outputs one after the other -/

namespace Output

theorem ext_items {output other : Output} (h : output.items = other.items) : output = other := by
  obtain ⟨items, depth, hdepth⟩ := output
  obtain ⟨others, depth', hdepth'⟩ := other
  obtain rfl : items = others := h
  subst hdepth hdepth'
  rfl

/-- The items of an output, after those of another. -/
def above (base inner : Output) : Output := base.extend inner.items.reverse

theorem items_above (base inner : Output) : (base.above inner).items = inner.items ++ base.items := by
  rw [above, items_extend, List.reverse_reverse]

theorem above_extend (base inner : Output) (items : List Postfix) :
    base.above (inner.extend items) = (base.above inner).extend items := by
  apply ext_items
  rw [items_above, items_extend, items_extend, items_above, List.append_assoc]

theorem above_push (base inner : Output) (item : Postfix) :
    base.above (inner.push item) = (base.above inner).push item := base.above_extend inner [item]

theorem height_reverse (items : List Postfix) : height items.reverse = height items := by
  induction items with
  | nil => rfl
  | cons item items ih =>
    rw [List.reverse_cons, height_append, ih, height_singleton, Int.add_comm]
    rfl

theorem depth_above (base inner : Output) : (base.above inner).depth = inner.depth + base.depth := by
  rw [above, depth_extend, height_reverse, inner.depth_eq, Int.add_comm]

theorem depth_above_extend (base inner : Output) (items : List Postfix) :
    ((base.above inner).extend items).depth = (inner.extend items).depth + base.depth := by
  rw [← above_extend, depth_above]

end Output

/-! ## Brackets that are pending -/

/-- The names in front of the brackets that are pending, the innermost first. -/
def brackets : List Pending → List (Option String)
  | [] => []
  | .operator _ :: pending => brackets pending
  | .paren :: pending => none :: brackets pending
  | .call function _ _ :: pending => some function :: brackets pending

theorem brackets_append (pending others : List Pending) :
    brackets (pending ++ others) = brackets pending ++ brackets others := by
  induction pending with
  | nil => rfl
  | cons top pending ih => cases top <;> simp [brackets, ih]

theorem brackets_waiting (ops : List Operator) : brackets (waiting ops) = [] := by
  induction ops with
  | nil => rfl
  | cons op ops ih => exact ih

theorem brackets_waiting_append (ops : List Operator) (pending : List Pending) :
    brackets (waiting ops ++ pending) = brackets pending := by
  rw [brackets_append, brackets_waiting, List.nil_append]

/-- Where a pending call stands above a height. -/
def Pending.raise (height : Int) : Pending → Pending
  | .call function commas mark => .call function commas (mark + height)
  | pending => pending

theorem brackets_raise (height : Int) (pending : List Pending) :
    brackets (pending.map (.raise height)) = brackets pending := by
  induction pending with
  | nil => rfl
  | cons top pending ih => cases top <;> simp [brackets, Pending.raise, ih]

theorem raise_waiting (height : Int) (ops : List Operator) :
    (waiting ops).map (.raise height) = waiting ops := by
  rw [waiting, List.map_map]
  rfl

/-- Whether what is pending is a bracket. -/
def Pending.isBracket : Pending → Bool
  | .operator _ => false
  | .paren | .call .. => true

theorem isBracket_raise (height : Int) (top : Pending) :
    (top.raise height).isBracket = top.isBracket := by
  cases top <;> rfl

/-- The operators in front of the first bracket are determined. -/
theorem waiting_append_inj {ops others : List Operator} {top other : Pending}
    {pending below : List Pending} (htop : top.isBracket = true) (hother : other.isBracket = true)
    (h : waiting ops ++ top :: pending = waiting others ++ other :: below) :
    ops = others ∧ top = other ∧ pending = below := by
  induction ops generalizing others with
  | nil =>
    cases others with
    | nil => exact ⟨rfl, List.cons.inj h⟩
    | cons op others =>
      obtain ⟨rfl, -⟩ := List.cons.inj h
      cases htop
  | cons op ops ih =>
    cases others with
    | nil =>
      obtain ⟨rfl, -⟩ := List.cons.inj h
      cases hother
    | cons op' others =>
      obtain ⟨hop, hrest⟩ := List.cons.inj h
      obtain rfl := Pending.operator.inj hop
      obtain ⟨rfl, hsame⟩ := ih hrest
      exact ⟨rfl, hsame⟩

/-- What is pending with a bracket in it has a first bracket. -/
theorem exists_bracket {pending : List Pending} (h : brackets pending ≠ []) :
    ∃ ops top below, pending = waiting ops ++ top :: below ∧ top.isBracket = true := by
  obtain ⟨ops, rfl | ⟨below, rfl⟩ | ⟨function, commas, mark, below, rfl⟩⟩ :=
    Conversion.pending_cases pending
  · exact absurd (brackets_waiting ops) h
  · exact ⟨ops, .paren, below, rfl, rfl⟩
  · exact ⟨ops, .call function commas mark, below, rfl, rfl⟩

/-- Without a bracket, operators are pending. -/
theorem exists_waiting {pending : List Pending} (h : brackets pending = []) :
    ∃ ops, pending = waiting ops := by
  obtain ⟨ops, rfl | ⟨below, rfl⟩ | ⟨function, commas, mark, below, rfl⟩⟩ :=
    Conversion.pending_cases pending
  · exact ⟨ops, rfl⟩
  · rw [brackets_waiting_append] at h
    cases h
  · rw [brackets_waiting_append] at h
    cases h

theorem brackets_length_closed {ops : List Operator} {top : Pending} {below : List Pending}
    (htop : top.isBracket = true) :
    (brackets below).length + 1 = (brackets (waiting ops ++ top :: below)).length := by
  rw [brackets_waiting_append]
  cases top with
  | operator op => cases htop
  | paren => rfl
  | call function commas mark => rfl

/-! ## Conversions one inside the other -/

namespace Conversion

/-- A conversion that goes on above an output and what is pending there. -/
def above (inner : Conversion) (base : Output) (outer : List Pending) : Conversion :=
  ⟨base.above inner.output, inner.pending.map (.raise base.depth) ++ outer, inner.opened⟩

theorem brackets_above (inner : Conversion) (base : Output) (outer : List Pending) :
    brackets (inner.above base outer).pending = brackets inner.pending ++ brackets outer := by
  rw [above, brackets_append, brackets_raise]

variable {inner : Conversion} {base : Output} {outer : List Pending}

theorem operand_above (item : Postfix) :
    (inner.above base outer).operand item = (inner.operand item).above base outer := by
  rw [operand, operand, above, above, Output.above_push]

/-- An operator releases nothing below the bracket that encloses it. -/
theorem operate_above {top : Pending} {below : List Pending} (htop : top.isBracket = true)
    (houter : outer = top :: below) (op : Operator) :
    (inner.above base outer).operate op = (inner.operate op).above base outer := by
  have hholds : ∀ {other : Pending} {rest : List Pending}, other.isBracket = true →
      Holds (isTighter op.precedence) (other :: rest) := by
    intro other rest hother op' rest' heq
    obtain ⟨rfl, -⟩ := List.cons.inj heq
    cases hother
  obtain ⟨output, pending, opened⟩ := inner
  -- the release stops at the first bracket, which is the enclosing one if there is none inside
  by_cases hbrackets : brackets pending = []
  · obtain ⟨ops, rfl⟩ := exists_waiting hbrackets
    have halone := @operate_waiting output ops [] opened op (holds_nil _)
    rw [List.append_nil, List.append_nil] at halone
    rw [halone, above, raise_waiting, houter, operate_waiting (hholds htop), above,
      Output.above_extend, List.map_cons, raise_waiting]
    rfl
  · obtain ⟨ops, other, rest, rfl, hother⟩ := exists_bracket hbrackets
    rw [operate_waiting (hholds hother), above, List.map_append, raise_waiting, List.append_assoc,
      List.map_cons, List.cons_append, operate_waiting (hholds (by rw [isBracket_raise, hother])),
      above, Output.above_extend, List.map_cons, List.map_append, raise_waiting, List.map_cons,
      List.cons_append, List.append_assoc]
    rfl

/-- The first bracket of a conversion is found again above. -/
theorem exists_bracket_of_above {output : Output} {ops : List Operator} {top : Pending}
    {pending : List Pending} {opened : Bool} (htop : top.isBracket = true)
    (hc : inner.above base outer = ⟨output, waiting ops ++ top :: pending, opened⟩)
    (hinner : brackets inner.pending ≠ []) :
    ∃ other below, inner.pending = waiting ops ++ other :: below ∧ inner.opened = opened ∧
      other.raise base.depth = top ∧ base.above inner.output = output ∧
      below.map (.raise base.depth) ++ outer = pending := by
  obtain ⟨houtput, hpending, hopened⟩ := Conversion.mk.inj hc
  obtain ⟨others, other, below, heq, hother⟩ := exists_bracket hinner
  rw [heq, List.map_append, raise_waiting, List.map_cons, List.append_assoc,
    List.cons_append] at hpending
  obtain ⟨rfl, hraise, hbelow⟩ := waiting_append_inj (by rw [isBracket_raise, hother]) htop hpending
  exact ⟨other, below, heq, hopened, hraise, houtput, hbelow⟩

theorem eq_paren_of_raise {height : Int} {top : Pending} (h : top.raise height = .paren) :
    top = .paren := by
  cases top with
  | operator op => cases h
  | paren => rfl
  | call function commas mark => cases h

theorem eq_call_of_raise {height : Int} {top : Pending} {function : String} {commas : Nat}
    {mark : Int} (h : top.raise height = .call function commas mark) :
    top = .call function commas (mark - height) := by
  cases top with
  | operator op => cases h
  | paren => cases h
  | call other others start =>
    obtain ⟨rfl, rfl, rfl⟩ := Pending.call.inj h
    rw [Int.add_sub_cancel]

/-- **Steps inside a call are those of the conversion inside.**  A comma or a closing bracket has to
belong to a bracket inside. -/
theorem Step.of_above {consumed rest : List Token} {next : Conversion}
    (h : Step (inner.above base outer) consumed rest next)
    (houter : ∃ top below, outer = top :: below ∧ top.isBracket = true)
    (hinside : consumed = [.comma] ∨ consumed = [.rightParen] → brackets inner.pending ≠ []) :
    ∃ after, Step inner consumed rest after ∧ next = after.above base outer := by
  obtain ⟨front, waits, fresh⟩ := inner
  -- the steps that look at what is pending need its shape inside, not above
  generalize hc : Conversion.above ⟨front, waits, fresh⟩ base outer = c at h
  cases h with
  | number value =>
    subst hc
    exact ⟨_, .number value, operand_above _⟩
  | var name hrest =>
    subst hc
    exact ⟨_, .var name hrest, operand_above _⟩
  | openParen =>
    subst hc
    exact ⟨_, .openParen, rfl⟩
  | @openCall _ _ function hname =>
    subst hc
    refine ⟨_, .openCall hname, ?_⟩
    simp only [Conversion.openCall, above, Output.depth_above]
    rfl
  | operate op =>
    subst hc
    obtain ⟨top, below, rfl, htop⟩ := houter
    exact ⟨_, .operate op, operate_above htop rfl op⟩
  | @comma output ops function commas mark pending opened _ hdepth =>
    obtain ⟨other, below, rfl, rfl, hraise, rfl, rfl⟩ :=
      exists_bracket_of_above rfl hc (hinside (.inl rfl))
    obtain rfl := eq_call_of_raise hraise
    rw [Output.depth_above_extend] at hdepth ⊢
    refine ⟨_, .comma (by simp only at hdepth ⊢; omega), ?_⟩
    rw [above, Output.above_extend]
    rfl
  | @closeStray output ops opened _ =>
    have hnone := brackets_above ⟨front, waits, fresh⟩ base outer
    rw [hc, brackets_waiting] at hnone
    exact absurd (List.append_eq_nil_iff.mp hnone.symm).1 (hinside (.inr rfl))
  | closeParen =>
    obtain ⟨other, below, rfl, rfl, hraise, rfl, rfl⟩ :=
      exists_bracket_of_above rfl hc (hinside (.inr rfl))
    obtain rfl := eq_paren_of_raise hraise
    refine ⟨_, .closeParen, ?_⟩
    rw [above, Output.above_extend]
  | closeCall hdepth =>
    obtain ⟨other, below, rfl, rfl, hraise, rfl, rfl⟩ :=
      exists_bracket_of_above rfl hc (hinside (.inr rfl))
    obtain rfl := eq_call_of_raise hraise
    rw [Output.depth_above_extend] at hdepth
    refine ⟨_, .closeCall (by simp only at hdepth ⊢; omega), ?_⟩
    rw [above, Output.above_push, Output.above_extend]
  | closeEmpty =>
    obtain ⟨other, below, rfl, rfl, hraise, rfl, rfl⟩ :=
      exists_bracket_of_above rfl hc (hinside (.inr rfl))
    obtain rfl := eq_call_of_raise hraise
    refine ⟨_, .closeEmpty, ?_⟩
    rw [above, Output.above_push, Output.above_extend]

end Conversion

end TradePlan.Postfix
