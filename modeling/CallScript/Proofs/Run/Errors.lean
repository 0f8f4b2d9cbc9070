import CallScript.Proofs.Run.Checks

/-!
# How a run can fail

A run is refused because of its records, its slots or its references, and it ends early at a command.
None of this is about the payment for it, which is settled before.
-/

namespace CallScript

/-- The payment for a run has failed. -/
def RunError.IsUnpaid (e : RunError) : Prop :=
  ∃ needed available, e = .insufficientBalance needed available

theorem RunError.IsMismatch.not_isUnpaid {e : RunError} (h : e.IsMismatch) : ¬ e.IsUnpaid := by
  obtain ⟨found, rfl⟩ := h
  simp [RunError.IsUnpaid]

variable {e : RunError}

theorem Command.decodeFrom_error {index : Nat} {records : List Bytes}
    (h : decodeFrom index records = .error e) : ∃ i length, e = .malformedCommand i length := by
  induction records generalizing index with
  | nil => cases h
  | cons raw rest ih =>
      rcases Except.bind_eq_error.mp h with hdecode | ⟨c, -, h⟩
      · unfold decode at hdecode
        split at hdecode
        · cases hdecode
        · cases hdecode
          exact ⟨_, _, rfl⟩
      · rcases Except.bind_eq_error.mp h with hrest | ⟨commands, -, hpure⟩
        · exact ih hrest
        · cases hpure

/-! ## Checks -/

namespace Preflight

theorem checkArgs_error {count : Nat} {args : List Arg} (h : checkArgs count args = .error e) :
    ∃ slot, e = .slotOutOfRange slot count := by
  induction args with
  | nil => cases h
  | cons arg rest ih =>
      unfold checkArgs at h
      split at h
      · split at h
        · exact ih h
        · cases h
          exact ⟨_, rfl⟩
      · exact ih h

theorem countAfter_not_isUnpaid {count : Nat} {output : Output} (h : countAfter count output = .error e) :
    ¬ e.IsUnpaid := by
  rcases countAfter_error h with ⟨slot, rfl⟩ | rfl
  · simp [RunError.IsUnpaid]
  · simp [RunError.IsUnpaid]

theorem checkCommand_not_isUnpaid {index : Nat} {known : Option Nat} {c : Command}
    (h : checkCommand index known c = .error e) : ¬ e.IsUnpaid := by
  unfold checkCommand at h
  split at h
  · cases h
    simp [RunError.IsUnpaid]
  · cases known with
    | none => cases h
    | some count =>
        rcases Except.bind_eq_error.mp h with hargs | ⟨_, -, hcount⟩
        · obtain ⟨slot, rfl⟩ := checkArgs_error hargs
          simp [RunError.IsUnpaid]
        · exact countAfter_not_isUnpaid hcount

theorem checkFrom_not_isUnpaid {index : Nat} {known : Option Nat} {commands : List Command}
    (h : checkFrom index known commands = .error e) : ¬ e.IsUnpaid := by
  induction commands generalizing index known with
  | nil => cases h
  | cons c rest ih =>
      rcases Except.bind_eq_error.mp h with hcheck | ⟨known', -, hrest⟩
      · exact checkCommand_not_isUnpaid hcheck
      · exact ih hrest

end Preflight

/-! ## Runs -/

namespace Run

variable {σ : Type}

theorem ofRecords_not_isUnpaid {records state : List Bytes} (h : ofRecords records state = .error e) :
    ¬ e.IsUnpaid := by
  rcases Except.bind_eq_error.mp h with hdecode | ⟨commands, -, h⟩
  · obtain ⟨i, length, rfl⟩ := Command.decodeFrom_error hdecode
    simp [RunError.IsUnpaid]
  · rcases Except.bind_eq_error.mp h with hslots | ⟨slots, -, h⟩
    · obtain ⟨rfl, -⟩ := Slots.ofList_error hslots
      simp [RunError.IsUnpaid]
    · rcases Except.bind_eq_error.mp h with hcheck | ⟨_, -, hpure⟩
      · unfold Preflight.check at hcheck
        split at hcheck
        · cases hcheck
          simp [RunError.IsUnpaid]
        · exact Preflight.checkFrom_not_isUnpaid hcheck
      · cases hpure

theorem step_not_isUnpaid {host : Host σ} {index : Nat} {c : Command} {slots slots' : Slots} {s s' : σ}
    (h : (step index c slots).run host s = ((.error e, slots'), s')) : ¬ e.IsUnpaid := by
  rcases (step_error h).2 with hdata | ⟨payload, rfl⟩ | ⟨returned, hkeep⟩
  · rcases Command.callData_error hdata with hmismatch | ⟨rfl, -⟩ | ⟨⟨slot, rfl⟩, -⟩
    · exact hmismatch.not_isUnpaid
    · simp [RunError.IsUnpaid]
    · simp [RunError.IsUnpaid]
  · simp [RunError.IsUnpaid]
  · rcases Command.keep_error hkeep with hmismatch | hcount | ⟨-, count, rfl⟩
    · exact hmismatch.not_isUnpaid
    · exact Preflight.countAfter_not_isUnpaid hcount
    · simp [RunError.IsUnpaid]

/-- No run fails for want of the payment for it. -/
theorem execute_not_isUnpaid {host : Host σ} {records state : List Bytes} {s s' : σ}
    (h : (execute records state).run host s = (.error e, s')) : ¬ e.IsUnpaid := by
  rcases execute_cases records state with ⟨e', hload, hrefused⟩ | ⟨commands, slots, -, hrun⟩
  · rw [hrefused] at h
    cases h
    exact ofRecords_not_isUnpaid hload
  · have hends := ends_steps host commands slots s
    rw [hrun, Dialogue.run_bind] at h
    generalize (steps 0 slots commands).run host s = ended at h hends
    obtain ⟨finish, s₁⟩ := ended
    cases hends with
    | completed harrives => cases h
    | aborted harrives hc hstep =>
        cases h
        exact step_not_isUnpaid hstep

end Run

end CallScript
