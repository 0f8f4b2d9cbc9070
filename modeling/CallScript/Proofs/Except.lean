/-!
# Computations that may fail

How a computation with several steps ends, by how its first step ends.
-/

namespace Except

variable {ε α β : Type}

@[simp] theorem ok_bind (a : α) (next : α → Except ε β) : (ok a >>= next) = next a := rfl

@[simp] theorem error_bind (e : ε) (next : α → Except ε β) : (error e >>= next) = error e := rfl

@[simp] theorem pure_eq_ok (a : α) : (pure a : Except ε α) = ok a := rfl

@[simp] theorem throw_eq_error (e : ε) : (throw e : Except ε α) = error e := rfl

theorem bind_eq_ok {x : Except ε α} {next : α → Except ε β} {b : β} :
    (x >>= next) = ok b ↔ ∃ a, x = ok a ∧ next a = ok b := by
  cases x <;> simp

theorem bind_eq_error {x : Except ε α} {next : α → Except ε β} {e : ε} :
    (x >>= next) = error e ↔ x = error e ∨ ∃ a, x = ok a ∧ next a = error e := by
  cases x <;> simp

/-- A computation behind a guard succeeds if the guard lets it through. -/
theorem ite_error_eq_ok {refused : Prop} [Decidable refused] {e : ε} {x : Except ε α} {a : α} :
    (if refused then error e else x) = ok a ↔ ¬ refused ∧ x = ok a := by
  split <;> simp [*]

theorem mapError_bind {ε' : Type} (f : ε → ε') (x : Except ε α) (next : α → Except ε β) :
    (x >>= next).mapError f = x.mapError f >>= fun a => (next a).mapError f := by
  cases x <;> rfl

theorem map_eq_ok {x : Except ε α} {f : α → β} {b : β} :
    (f <$> x) = ok b ↔ ∃ a, x = ok a ∧ f a = b := by
  constructor
  · intro h
    cases x with
    | ok a => exact ⟨a, rfl, ok.inj h⟩
    | error e => cases h
  · rintro ⟨a, rfl, rfl⟩
    rfl

end Except
