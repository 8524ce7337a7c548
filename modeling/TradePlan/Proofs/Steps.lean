import TradePlan.Proofs.Conversion

/-!
# Runs of the conversion, step by step

`Step` lists what the next tokens can do to a conversion that goes on, with one constructor for
each kind of token and of what is pending.  A run is a chain of steps, so a property of runs is
proved by showing that steps keep it:

    run c tokens = .ok after → tokens = [] ∨ ∃ consumed rest next, Step c consumed rest next ∧ …
    Step c consumed rest next → run c (consumed ++ rest) = run next rest

The tokens that follow take part in a step only by the parenthesis that makes a name a call.
-/

namespace TradePlan.Postfix.Conversion

/-! ## What is pending -/

/-- What is pending is operators on top of nothing, of a parenthesis or of a call. -/
theorem pending_cases (pending : List Pending) :
    ∃ ops, pending = waiting ops ∨ (∃ rest, pending = waiting ops ++ .paren :: rest) ∨
      ∃ function commas mark rest, pending = waiting ops ++ .call function commas mark :: rest := by
  induction pending with
  | nil => exact ⟨[], .inl rfl⟩
  | cons top pending ih =>
    cases top with
    | operator op =>
      obtain ⟨ops, h⟩ := ih
      refine ⟨op :: ops, ?_⟩
      rcases h with rfl | ⟨rest, rfl⟩ | ⟨function, commas, mark, rest, rfl⟩
      · exact .inl rfl
      · exact .inr (.inl ⟨rest, rfl⟩)
      · exact .inr (.inr ⟨function, commas, mark, rest, rfl⟩)
    | paren => exact ⟨[], .inr (.inl ⟨pending, rfl⟩)⟩
    | call function commas mark => exact ⟨[], .inr (.inr ⟨function, commas, mark, pending, rfl⟩)⟩

/-- The operators that an operator releases lie on top of the others. -/
theorem operate_eq (c : Conversion) (op : Operator) :
    ∃ ops pending, c.pending = waiting ops ++ pending ∧
      c.operate op = ⟨c.output.extend (ops.map .operator), .operator op :: pending, false⟩ := by
  obtain ⟨output, pending, opened⟩ := c
  obtain ⟨ops, rest, hpending, hholds⟩ : ∃ ops rest, pending = waiting ops ++ rest ∧
      Holds (isTighter op.precedence) rest := by
    obtain ⟨ops, rfl | ⟨rest, rfl⟩ | ⟨function, commas, mark, rest, rfl⟩⟩ := pending_cases pending
    · exact ⟨ops, [], (List.append_nil _).symm, holds_nil _⟩
    · exact ⟨ops, _, rfl, holds_paren _ _⟩
    · exact ⟨ops, _, rfl, holds_call _ _ _ _ _⟩
  refine ⟨ops.takeWhile (isTighter op.precedence),
    waiting (ops.dropWhile (isTighter op.precedence)) ++ rest, ?_, ?_⟩
  · rw [← List.append_assoc, ← waiting_append, List.takeWhile_append_dropWhile]
    exact hpending
  · subst hpending
    exact operate_waiting hholds

/-! ## Steps -/

/-- The tokens lead from one conversion to the next, in front of further tokens. -/
inductive Step : Conversion → List Token → List Token → Conversion → Prop where
  | number {c : Conversion} {rest : List Token} (value : Float) :
      Step c [.number value] rest (c.operand (.number value))
  | var {c : Conversion} {rest : List Token} (name : String) :
      rest.head? ≠ some .leftParen → Step c [.identifier name] rest (c.operand (.var name))
  | openParen {c : Conversion} {rest : List Token} : Step c [.leftParen] rest c.openParen
  | openCall {c : Conversion} {rest : List Token} {function : String} :
      Builtin.isName function = true →
      Step c [.identifier function, .leftParen] rest (c.openCall function)
  | operate {c : Conversion} {rest : List Token} (op : Operator) :
      Step c [.operator op] rest (c.operate op)
  | comma {output : Output} {ops : List Operator} {function : String} {commas : Nat} {mark : Int}
      {pending : List Pending} {opened : Bool} {rest : List Token} :
      (output.extend (ops.map .operator)).depth - mark = 1 →
      Step ⟨output, waiting ops ++ .call function commas mark :: pending, opened⟩ [.comma] rest
        ⟨output.extend (ops.map .operator),
          .call function (commas + 1) (output.extend (ops.map .operator)).depth :: pending, false⟩
  | closeStray {output : Output} {ops : List Operator} {opened : Bool} {rest : List Token} :
      Step ⟨output, waiting ops, opened⟩ [.rightParen] rest
        ⟨output.extend (ops.map .operator), [], false⟩
  | closeParen {output : Output} {ops : List Operator} {pending : List Pending} {opened : Bool}
      {rest : List Token} :
      Step ⟨output, waiting ops ++ .paren :: pending, opened⟩ [.rightParen] rest
        ⟨output.extend (ops.map .operator), pending, false⟩
  | closeCall {output : Output} {ops : List Operator} {function : String} {commas : Nat}
      {mark : Int} {pending : List Pending} {rest : List Token} :
      (output.extend (ops.map .operator)).depth - mark = 1 →
      Step ⟨output, waiting ops ++ .call function commas mark :: pending, false⟩ [.rightParen] rest
        ⟨(output.extend (ops.map .operator)).push (.call function (commas + 1)), pending, false⟩
  | closeEmpty {output : Output} {ops : List Operator} {function : String} {commas : Nat}
      {mark : Int} {pending : List Pending} {rest : List Token} :
      Step ⟨output, waiting ops ++ .call function commas mark :: pending, true⟩ [.rightParen] rest
        ⟨(output.extend (ops.map .operator)).push (.call function 0), pending, false⟩

theorem Step.ne_nil {c next : Conversion} {consumed rest : List Token}
    (h : Step c consumed rest next) : consumed ≠ [] := by
  cases h <;> exact List.cons_ne_nil _ _

/-- A step is what the run does, whatever follows. -/
theorem run_of_step {c next : Conversion} {consumed rest other : List Token}
    (h : Step c consumed rest next)
    (hother : other.head? = some .leftParen → rest.head? = some .leftParen) :
    run c (consumed ++ other) = run next other := by
  cases h with
  | number value => rfl
  | var name hrest => exact run_var fun heq => hrest (hother heq)
  | openParen => rfl
  | openCall hname => exact if_pos hname
  | operate op => rfl
  | comma hdepth =>
    show (comma _ >>= fun c => run c other) = _
    rw [comma_call, Output.checkArgument_eq_ok_iff.mpr hdepth]
    rfl
  | closeStray =>
    show (close _ >>= fun c => run c other) = _
    rw [close_stray]
    rfl
  | closeParen =>
    show (close _ >>= fun c => run c other) = _
    rw [close_paren]
    rfl
  | closeCall hdepth =>
    show (close _ >>= fun c => run c other) = _
    rw [close_call, Output.checkArgument_eq_ok_iff.mpr hdepth]
    rfl
  | closeEmpty =>
    show (close _ >>= fun c => run c other) = _
    rw [close_empty]
    rfl

theorem step_of_comma {c next : Conversion} (h : c.comma = .ok next) (rest : List Token) :
    Step c [.comma] rest next := by
  obtain ⟨output, pending, opened⟩ := c
  obtain ⟨ops, rfl | ⟨below, rfl⟩ | ⟨function, commas, mark, below, rfl⟩⟩ := pending_cases pending
  · have hrelease := release_all (holds_nil _) output ops
    rw [List.append_nil] at hrelease
    simp only [comma, hrelease] at h
    cases h
  · simp only [comma, release_all (holds_paren _ below)] at h
    cases h
  · rw [comma_call] at h
    obtain ⟨_, hcheck, h⟩ := bind_eq_ok_iff.mp h
    obtain rfl : _ = next := Except.ok.inj h
    exact .comma (Output.checkArgument_eq_ok_iff.mp hcheck)

theorem step_of_close {c next : Conversion} (h : c.close = .ok next) (rest : List Token) :
    Step c [.rightParen] rest next := by
  obtain ⟨output, pending, opened⟩ := c
  obtain ⟨ops, rfl | ⟨below, rfl⟩ | ⟨function, commas, mark, below, rfl⟩⟩ := pending_cases pending
  · rw [close_stray] at h
    obtain rfl : _ = next := Except.ok.inj h
    exact .closeStray
  · rw [close_paren] at h
    obtain rfl : _ = next := Except.ok.inj h
    exact .closeParen
  · cases opened with
    | true =>
      rw [close_empty] at h
      obtain rfl : _ = next := Except.ok.inj h
      exact .closeEmpty
    | false =>
      rw [close_call] at h
      obtain ⟨_, hcheck, h⟩ := bind_eq_ok_iff.mp h
      obtain rfl : _ = next := Except.ok.inj h
      exact .closeCall (Output.checkArgument_eq_ok_iff.mp hcheck)

/-- A run that goes on starts with a step. -/
theorem exists_step {c after : Conversion} {tokens : List Token} (h : run c tokens = .ok after)
    (hne : tokens ≠ []) :
    ∃ consumed rest next, tokens = consumed ++ rest ∧ Step c consumed rest next ∧
      run next rest = .ok after := by
  match tokens with
  | [] => exact absurd rfl hne
  | .number value :: rest => exact ⟨[.number value], rest, _, rfl, .number value, h⟩
  | .operator op :: rest => exact ⟨[.operator op], rest, _, rfl, .operate op, h⟩
  | .leftParen :: rest => exact ⟨[.leftParen], rest, _, rfl, .openParen, h⟩
  | .comma :: rest =>
    obtain ⟨next, hcomma, h⟩ := bind_eq_ok_iff.mp h
    exact ⟨[.comma], rest, next, rfl, step_of_comma hcomma rest, h⟩
  | .rightParen :: rest =>
    obtain ⟨next, hclose, h⟩ := bind_eq_ok_iff.mp h
    exact ⟨[.rightParen], rest, next, rfl, step_of_close hclose rest, h⟩
  | .identifier name :: rest =>
    by_cases hparen : rest.head? = some .leftParen
    · obtain ⟨below, rfl⟩ : ∃ below, rest = .leftParen :: below := by
        cases rest with
        | nil => cases hparen
        | cons token below =>
          obtain rfl : token = .leftParen := Option.some.inj hparen
          exact ⟨below, rfl⟩
      rw [run] at h
      split at h
      · next hname =>
        exact ⟨[.identifier name, .leftParen], below, _, rfl, .openCall hname, h⟩
      · cases h
    · rw [run_var hparen] at h
      exact ⟨[.identifier name], rest, _, rfl, .var name hparen, h⟩

/-- **Induction on runs.**  What holds at the end of a run, and before a step if it holds after it,
holds at the start. -/
theorem run_induction {after : Conversion} {motive : Conversion → List Token → Prop}
    (done : motive after [])
    (step : ∀ c consumed rest next, Step c consumed rest next → motive next rest →
      motive c (consumed ++ rest))
    {c : Conversion} {tokens : List Token} (h : run c tokens = .ok after) : motive c tokens := by
  by_cases hne : tokens = []
  · subst hne
    obtain rfl : c = after := Except.ok.inj h
    exact done
  · obtain ⟨consumed, rest, next, rfl, hstep, hrun⟩ := exists_step h hne
    have hlen := List.length_pos_iff.mpr hstep.ne_nil
    exact step c consumed rest next hstep (run_induction done step hrun)
termination_by tokens.length
decreasing_by
  subst tokens
  rw [List.length_append]
  omega

end TradePlan.Postfix.Conversion
