/-!
# Actions one after the other

An action that goes on with the result of another one succeeds if both do, and fails if either
does.  These laws take a sequence apart into its steps.

Main results:

- `except_bind_eq_ok_iff` and `except_bind_eq_error_iff`: sequences of computations that can fail.
- `run_bind_eq_ok_iff` and `run_bind_eq_error_iff`: the same with a state that is passed on.
-/

namespace LineBasic

variable {ε σ α β : Type}

/-- A sequence gives a value if its first part does and its second part does from there. -/
theorem except_bind_eq_ok_iff {x : Except ε α} {f : α → Except ε β} {b : β} :
    x >>= f = .ok b ↔ ∃ a, x = .ok a ∧ f a = .ok b := by
  cases x <;> simp [bind, Except.bind]

/-- A sequence fails if its first part fails, or its second part does from there. -/
theorem except_bind_eq_error_iff {x : Except ε α} {f : α → Except ε β} {e : ε} :
    x >>= f = .error e ↔ x = .error e ∨ ∃ a, x = .ok a ∧ f a = .error e := by
  cases x <;> simp [bind, Except.bind]

/-- A sequence succeeds if its first part does and its second part does from the state there. -/
theorem run_bind_eq_ok_iff {x : EStateM ε σ α} {f : α → EStateM ε σ β} {s s' : σ} {b : β} :
    (x >>= f).run s = .ok b s' ↔ ∃ a t, x.run s = .ok a t ∧ (f a).run t = .ok b s' := by
  rw [EStateM.run_bind]
  cases x.run s <;> simp [and_assoc]

/-- A sequence fails if its first part fails, or its second part does from the state there. -/
theorem run_bind_eq_error_iff {x : EStateM ε σ α} {f : α → EStateM ε σ β} {s s' : σ} {e : ε} :
    (x >>= f).run s = .error e s' ↔
      x.run s = .error e s' ∨ ∃ a t, x.run s = .ok a t ∧ (f a).run t = .error e s' := by
  rw [EStateM.run_bind]
  cases x.run s <;> simp [and_assoc]

end LineBasic
