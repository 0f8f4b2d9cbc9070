import CallScript.Proofs.Command
import CallScript.Proofs.Except
import CallScript.Run.Basic

/-!
# Runs, step by step

A run with a host goes from command to command. It arrives at a position when all commands before it
have succeeded, and it ends at the first command that fails or behind the last one.
-/

namespace CallScript

/-! ## Dialogues -/

namespace Dialogue

variable {α β σ : Type}

theorem bind_assoc {γ : Type} (d : Dialogue α) (k : α → Dialogue β) (k' : β → Dialogue γ) :
    (d.bind k).bind k' = d.bind fun a => (k a).bind k' := by
  induction d with
  | done result => rfl
  | ask message next ih => simp only [bind, ih]
  | note line next ih => simp only [bind, ih]

theorem run_bind (host : Host σ) (d : Dialogue α) (k : α → Dialogue β) (s : σ) :
    (d.bind k).run host s = (k (d.run host s).1).run host (d.run host s).2 := by
  induction d generalizing s with
  | done result => rfl
  | ask message next ih => exact ih _ _
  | note line next ih => exact ih s

/-- What the host is asked, in order. -/
def messages (host : Host σ) : Dialogue α → σ → List Message
  | .done _, _ => []
  | .ask message next, s =>
    message :: (next (host message s).1).messages host (host message s).2
  | .note _ next, s => next.messages host s

theorem messages_bind (host : Host σ) (d : Dialogue α) (k : α → Dialogue β) (s : σ) :
    (d.bind k).messages host s =
      d.messages host s ++ (k (d.run host s).1).messages host (d.run host s).2 := by
  induction d generalizing s with
  | done result => rfl
  | ask message next ih => simp only [bind, messages, run, ih, List.cons_append]
  | note line next ih => exact ih s

end Dialogue

/-! ## Writes that fail -/

namespace Slots

variable {s s' : Slots} {e : RunError}

theorem ofList_values (s : Slots) : ofList s.values = .ok s := by
  rw [ofList, dif_pos s.length_le]

theorem eq_of_set_error {slot : UInt8} {value : Bytes} (h : s.set slot value = (.error e, s')) : s' = s := by
  unfold set at h
  split at h
  · cases h
  · split at h
    · split at h
      · cases h
      · cases h; rfl
    · cases h; rfl

theorem eq_of_replace_error {values : List Bytes} (h : s.replace values = (.error e, s')) : s' = s := by
  unfold replace at h
  split at h
  · cases h
  · cases h; rfl

theorem eq_of_put_error {α : Type} {write : Slots → α → Except RunError Unit × Slots}
    {read : Except RunError α} (hwrite : ∀ {value}, write s value = (.error e, s') → s' = s)
    (h : s.put write read = (.error e, s')) : s' = s := by
  cases read with
  | ok value => exact hwrite h
  | error e' => cases h; rfl

end Slots

/-- A command that cannot keep what came back leaves the slots as they were. -/
theorem Command.eq_of_keep_error {c : Command} {slots slots' : Slots} {data : Bytes} {e : RunError}
    (h : c.keep slots data = (.error e, slots')) : slots' = slots := by
  unfold keep at h
  split at h
  · cases h
  · exact Slots.eq_of_put_error Slots.eq_of_replace_error h
  · exact Slots.eq_of_put_error Slots.eq_of_set_error h
  · exact Slots.eq_of_put_error Slots.eq_of_set_error h

namespace Run

variable {σ : Type} {host : Host σ} {commands : List Command} {slots : Slots} {s : σ}

/-! ## One command -/

/-- The call that a command makes. -/
def message (c : Command) (data : CallData) : Message :=
  ⟨c.kind, c.target, data.input, data.value⟩

theorem run_step (host : Host σ) (index : Nat) (c : Command) (slots : Slots) (s : σ) :
    (step index c slots).run host s =
      match c.callData index slots with
      | .error e => ((.error e, slots), s)
      | .ok data =>
        match host (message c data) s with
        | (.failure payload, s) => ((.error (.calleeFailure index payload), slots), s)
        | (.success returned, s) => (c.keep slots returned, s) := by
  unfold step
  cases c.callData index slots with
  | error e => rfl
  | ok data =>
      simp only [Dialogue.run, message]
      rcases host ⟨c.kind, c.target, data.input, data.value⟩ s with ⟨returned | payload, s⟩ <;> rfl

/-- A command that succeeds has built its input, and its call has returned what it keeps. -/
theorem step_ok {index : Nat} {c : Command} {slots slots' : Slots} {s s' : σ}
    (h : (step index c slots).run host s = ((.ok (), slots'), s')) :
    ∃ data returned, c.callData index slots = .ok data ∧
      host (message c data) s = (.success returned, s') ∧ c.keep slots returned = (.ok (), slots') := by
  rw [run_step] at h
  cases hdata : c.callData index slots with
  | error e => simp [hdata] at h
  | ok data =>
      simp only [hdata] at h
      rcases hhost : host (message c data) s with ⟨returned | payload, s₁⟩
      · simp only [hhost, Prod.mk.injEq] at h
        obtain ⟨hkeep, rfl⟩ := h
        exact ⟨data, returned, rfl, hhost, hkeep⟩
      · simp [hhost] at h

/-- A command fails while its input is built, in its call, or when it keeps what came back. It leaves the
slots as they were. -/
theorem step_error {index : Nat} {c : Command} {slots slots' : Slots} {s s' : σ} {e : RunError}
    (h : (step index c slots).run host s = ((.error e, slots'), s')) :
    slots' = slots ∧
      (c.callData index slots = .error e ∨ (∃ payload, e = .calleeFailure index payload) ∨
        ∃ returned, c.keep slots returned = (.error e, slots')) := by
  rw [run_step] at h
  cases hdata : c.callData index slots with
  | error e' =>
      simp only [hdata, Prod.mk.injEq, Except.error.injEq] at h
      obtain ⟨⟨rfl, rfl⟩, -⟩ := h
      exact ⟨rfl, .inl rfl⟩
  | ok data =>
      simp only [hdata] at h
      rcases hhost : host (message c data) s with ⟨returned | payload, s₁⟩
      · simp only [hhost, Prod.mk.injEq] at h
        exact ⟨Command.eq_of_keep_error h.1, .inr (.inr ⟨returned, h.1⟩)⟩
      · simp only [hhost, Prod.mk.injEq, Except.error.injEq] at h
        obtain ⟨⟨rfl, rfl⟩, -⟩ := h
        exact ⟨rfl, .inr (.inl ⟨payload, rfl⟩)⟩

theorem run_steps_cons (host : Host σ) (index : Nat) (slots : Slots) (c : Command)
    (rest : List Command) (s : σ) :
    (steps index slots (c :: rest)).run host s =
      match (step index c slots).run host s with
      | ((.error e, slots), s) => (⟨slots, index, some e⟩, s)
      | ((.ok (), slots), s) => (steps (index + 1) slots rest).run host s := by
  rw [steps, Dialogue.run_bind]
  rcases (step index c slots).run host s with ⟨⟨e | _, slots'⟩, s'⟩ <;> rfl

/-! ## All commands -/

/-- The run arrives at a position with these slots, and leaves its host like this. -/
inductive Arrives (host : Host σ) (commands : List Command) (slots : Slots) (s : σ) :
    Nat → Slots → σ → Prop
  | start : Arrives host commands slots s 0 slots s
  | next {i : Nat} {c : Command} {slots₁ slots₂ : Slots} {s₁ s₂ : σ} :
      Arrives host commands slots s i slots₁ s₁ → commands[i]? = some c →
      (step i c slots₁).run host s₁ = ((.ok (), slots₂), s₂) →
      Arrives host commands slots s (i + 1) slots₂ s₂

/-- A run ends behind its last command, or at a command that fails. -/
inductive Ends (host : Host σ) (commands : List Command) (slots : Slots) (s : σ) :
    Finish → σ → Prop
  | completed {slots' : Slots} {s' : σ} :
      Arrives host commands slots s commands.length slots' s' →
      Ends host commands slots s ⟨slots', commands.length, none⟩ s'
  | aborted {i : Nat} {c : Command} {slots₁ slots' : Slots} {s₁ s' : σ} {e : RunError} :
      Arrives host commands slots s i slots₁ s₁ → commands[i]? = some c →
      (step i c slots₁).run host s₁ = ((.error e, slots'), s') →
      Ends host commands slots s ⟨slots', i, some e⟩ s'

theorem Arrives.le_length {i : Nat} {slots' : Slots} {s' : σ}
    (h : Arrives host commands slots s i slots' s') : i ≤ commands.length := by
  cases h with
  | start => exact Nat.zero_le _
  | next _ hc _ => exact (List.getElem?_eq_some_iff.mp hc).1

theorem Arrives.ends {i : Nat} {slots' : Slots} {s' : σ}
    (h : Arrives host commands slots s i slots' s') (rest : List Command)
    (hrest : commands.drop i = rest) :
    Ends host commands slots s ((steps i slots' rest).run host s').1
      ((steps i slots' rest).run host s').2 := by
  induction rest generalizing i slots' s' with
  | nil =>
      have hi : i = commands.length := Nat.le_antisymm h.le_length (List.drop_eq_nil_iff.mp hrest)
      subst hi
      exact .completed h
  | cons c rest ih =>
      have hc : commands[i]? = some c := by rw [← List.head?_drop, hrest]; rfl
      have hnext : commands.drop (i + 1) = rest := by rw [← List.tail_drop, hrest]; rfl
      rw [run_steps_cons]
      rcases hstep : (step i c slots').run host s' with ⟨⟨e | _, slots₂⟩, s₂⟩
      · exact .aborted h hc hstep
      · exact ih (h.next hc hstep) hnext

/-- The commands of a run are run one after the other, up to the first that fails. -/
theorem ends_steps (host : Host σ) (commands : List Command) (slots : Slots) (s : σ) :
    Ends host commands slots s ((steps 0 slots commands).run host s).1
      ((steps 0 slots commands).run host s).2 :=
  Arrives.start.ends commands rfl

/-! ## Loading and starting -/

/-- What a run gives back. -/
def Finish.result (f : Finish) : Except RunError (List Bytes) :=
  match f.error? with
  | none => .ok f.slots.values
  | some e => .error e

theorem load_ok {state : List Bytes} {r : Run} (h : load commands state = .ok r) :
    ∃ slots, Slots.ofList state = .ok slots ∧ Preflight.check commands slots.size = .ok () ∧
      r = { commands, slots } := by
  obtain ⟨slots, hslots, h⟩ := Except.bind_eq_ok.mp h
  obtain ⟨_, hcheck, hpure⟩ := Except.bind_eq_ok.mp h
  cases hpure
  exact ⟨slots, hslots, hcheck, rfl⟩

theorem run_start (commands : List Command) (slots : Slots) (host : Host σ) (s : σ) :
    let finish := ((steps 0 slots commands).run host s).1
    (Run.start { commands, slots }).run host s =
      ((match finish.error? with
        | none => (.ok (), ⟨commands, finish.slots, finish.pc, .completed⟩)
        | some e => (.error e, ⟨commands, finish.slots, finish.pc, .aborted⟩)),
        ((steps 0 slots commands).run host s).2) := by
  simp only [start, List.drop_zero, Dialogue.run_bind]
  cases ((steps 0 slots commands).run host s).1.error? <;> rfl

/-- A run that fails has arrived at the command where it stands, and that command has failed. -/
theorem start_error {e : RunError} (host : Host σ) (slots : Slots) (s : σ)
    (h : ((Run.start { commands, slots }).run host s).1.1 = .error e) :
    let ended := ((Run.start { commands, slots }).run host s).1.2
    ∃ c s₁ s₂, Arrives host commands slots s ended.pc ended.slots s₁ ∧ commands[ended.pc]? = some c ∧
      (step ended.pc c ended.slots).run host s₁ = ((.error e, ended.slots), s₂) := by
  have hends := ends_steps host commands slots s
  simp only [run_start] at h ⊢
  generalize (steps 0 slots commands).run host s = ended at h hends ⊢
  obtain ⟨finish, s'⟩ := ended
  cases hends with
  | completed harrives => cases h
  | aborted harrives hc hstep =>
      cases h
      obtain rfl := (step_error hstep).1
      exact ⟨_, _, _, harrives, hc, hstep⟩

/-- Running records that were accepted is running their commands. -/
theorem execute_eq {records state : List Bytes} {slots : Slots}
    (h : ofRecords records state = .ok { commands, slots }) :
    execute records state = (steps 0 slots commands).bind fun finish => .done finish.result := by
  simp only [execute, h, start, List.drop_zero, Dialogue.bind_assoc]
  congr 1
  funext finish
  unfold Finish.result
  cases finish.error? <;> rfl

theorem execute_of_error {records state : List Bytes} {e : RunError}
    (h : ofRecords records state = .error e) : execute records state = .done (.error e) := by
  simp only [execute, h]

/-- Records are refused, or their commands are run. -/
theorem execute_cases (records state : List Bytes) :
    (∃ e, ofRecords records state = .error e ∧ execute records state = .done (.error e)) ∨
      ∃ commands slots, ofRecords records state = .ok { commands, slots } ∧
        execute records state = (steps 0 slots commands).bind fun finish => .done finish.result := by
  cases hload : ofRecords records state with
  | error e => exact .inl ⟨e, rfl, execute_of_error hload⟩
  | ok r =>
      obtain ⟨commands, -, hloaded⟩ := Except.bind_eq_ok.mp hload
      obtain ⟨slots, -, -, rfl⟩ := load_ok hloaded
      exact .inr ⟨commands, slots, rfl, execute_eq hload⟩

theorem ofRecords_singleton {c : Command} (h : Preflight.check [c] slots.size = .ok ()) :
    ofRecords [c.toRecord.bytes] slots.values = .ok { commands := [c], slots } := by
  simp [ofRecords, load, Command.decodeAll_singleton, Slots.ofList_values, h]

/-- A run of one command is that command. -/
theorem run_execute_singleton {c : Command} (h : Preflight.check [c] slots.size = .ok ())
    (host : Host σ) (s : σ) :
    (execute [c.toRecord.bytes] slots.values).run host s =
      ((step 0 c slots).run host s).map (fun ended => ended.1.map fun _ => ended.2.values) id := by
  rw [execute_eq (ofRecords_singleton h), Dialogue.run_bind, run_steps_cons]
  rcases (step 0 c slots).run host s with ⟨⟨e | _, slots'⟩, s'⟩ <;> rfl

end Run

end CallScript
