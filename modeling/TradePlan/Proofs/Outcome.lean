/-!
# Computations that can fail

A sequence of computations stops with the first one that fails, and succeeds if all of them do.
-/

namespace TradePlan

variable {ε α β : Type}

theorem ok_bind (a : α) (f : α → Except ε β) : (Except.ok a >>= f) = f a := rfl

theorem error_bind (fault : ε) (f : α → Except ε β) :
    ((Except.error fault : Except ε α) >>= f) = Except.error fault := rfl

/-- A sequence of two computations succeeds if both do. -/
theorem bind_eq_ok_iff {x : Except ε α} {f : α → Except ε β} {b : β} :
    (x >>= f) = .ok b ↔ ∃ a, x = .ok a ∧ f a = .ok b := by
  cases x with
  | error fault => simp [error_bind]
  | ok a => simp [ok_bind]

/-- A sequence of two computations fails as the first of them that fails. -/
theorem bind_eq_error_iff {x : Except ε α} {f : α → Except ε β} {fault : ε} :
    (x >>= f) = .error fault ↔ x = .error fault ∨ ∃ a, x = .ok a ∧ f a = .error fault := by
  cases x with
  | error other => simp [error_bind]
  | ok a => simp [ok_bind]

theorem pure_eq_ok (a : α) : (pure a : Except ε α) = .ok a := rfl

/-- Results that are no errors are told apart by their values. -/
theorem eq_ok_of_toOption {x : Except ε α} {a : α} (h : x.toOption = some a) : x = .ok a := by
  cases x with
  | error fault => cases h
  | ok value => exact congrArg Except.ok (Option.some.inj h)

end TradePlan
