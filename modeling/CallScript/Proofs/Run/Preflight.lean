import CallScript.Proofs.Run.Checks

/-!
# What the checks before a run are worth

They are sound: a run that was accepted never lacks a value slot, and up to the first command that
replaces all slots every reference is good and every count of slots is right. They are complete: what
they refuse would not have come to its end with any host. So a run ends well exactly if it would have
done so without the checks.
-/

namespace CallScript

/-- Some command before position `i` puts a new state in the place of all slots. -/
def Replaced (commands : List Command) (i : Nat) : Prop :=
  ∃ c ∈ commands.take i, c.output = .replaceState

theorem replaced_succ {commands : List Command} {i : Nat} {c : Command} (hc : commands[i]? = some c) :
    Replaced commands (i + 1) ↔ Replaced commands i ∨ c.output = .replaceState := by
  obtain ⟨hi, rfl⟩ := List.getElem?_eq_some_iff.mp hc
  unfold Replaced
  rw [List.take_succ_eq_append_getElem hi]
  simp only [List.mem_append, List.mem_singleton, or_and_right, exists_or, exists_eq_left]

namespace Preflight

/-! ## Counts of slots -/

/-- The number of slots that the checks have arrived at behind some commands. -/
def trackFrom (index : Nat) (known : Option Nat) : List Command → Except RunError (Option Nat)
  | [] => return known
  | c :: rest => do
    let known ← checkCommand index known c
    trackFrom (index + 1) known rest

theorem checkFrom_append (index : Nat) (known : Option Nat) (front back : List Command) :
    checkFrom index known (front ++ back) = (do
      let known ← trackFrom index known front
      checkFrom (index + front.length) known back) := by
  induction front generalizing index known with
  | nil => rfl
  | cons c front ih =>
      simp only [List.cons_append, checkFrom, trackFrom, List.length_cons]
      cases checkCommand index known c with
      | error e => rfl
      | ok known =>
          simp only [Except.ok_bind, ih, Nat.add_assoc, Nat.add_comm 1]

theorem trackFrom_concat (index : Nat) (known : Option Nat) (front : List Command) (c : Command) :
    trackFrom index known (front ++ [c]) = (do
      let known ← trackFrom index known front
      checkCommand (index + front.length) known c) := by
  induction front generalizing index known with
  | nil =>
      simp only [List.nil_append, trackFrom, List.length_nil, Nat.add_zero, Except.pure_eq_ok, Except.ok_bind]
      cases checkCommand index known c <;> rfl
  | cons first front ih =>
      simp only [List.cons_append, trackFrom, List.length_cons]
      cases checkCommand index known first with
      | error e => rfl
      | ok known =>
          simp only [Except.ok_bind, ih, Nat.add_assoc, Nat.add_comm 1]

theorem trackFrom_eq_none {index : Nat} {known known' : Option Nat} {commands : List Command}
    (h : trackFrom index known commands = .ok known') :
    known' = none ↔ known = none ∨ ∃ c ∈ commands, c.output = .replaceState := by
  induction commands generalizing index known with
  | nil => cases h; simp
  | cons c rest ih =>
      obtain ⟨known₁, hcheck, hrest⟩ := Except.bind_eq_ok.mp h
      rw [ih hrest, checkCommand_eq_none hcheck]
      simp [or_assoc]

theorem trackFrom_take_eq_none {index count i : Nat} {known : Option Nat} {commands : List Command}
    (h : trackFrom index (some count) (commands.take i) = .ok known) :
    known = none ↔ Replaced commands i := by
  rw [trackFrom_eq_none h, Replaced]
  simp

/-- The checks follow their commands one by one. -/
theorem checkCommand_of_checkFrom {commands : List Command} {i : Nat} {c : Command}
    {known known₁ : Option Nat} (h : checkFrom 0 known commands = .ok ())
    (hc : commands[i]? = some c) (htrack : trackFrom 0 known (commands.take i) = .ok known₁) :
    ∃ known₂, checkCommand i known₁ c = .ok known₂ := by
  obtain ⟨hi, rfl⟩ := List.getElem?_eq_some_iff.mp hc
  have hlength : (commands.take i).length = i := by simp; omega
  rw [← List.take_append_drop i commands, List.drop_eq_getElem_cons hi, checkFrom_append, htrack,
    Except.ok_bind, hlength, Nat.zero_add] at h
  obtain ⟨known₂, hcheck, -⟩ := Except.bind_eq_ok.mp h
  exact ⟨known₂, hcheck⟩

end Preflight

open Preflight

namespace Run

variable {σ : Type} {host : Host σ} {commands : List Command} {slots slots' : Slots} {s s' : σ} {i : Nat}

/-- When a run arrives at a position, the checks have passed all commands before it, and the number of
slots they have arrived at is right. -/
theorem Arrives.tracks (h : Arrives host commands slots s i slots' s') :
    ∃ known, trackFrom 0 (some slots.size) (commands.take i) = .ok known ∧ Tracks known slots' := by
  induction h with
  | start => exact ⟨some slots.size, by simp [trackFrom], fun count hcount => by cases hcount; rfl⟩
  | @next i c slots₁ slots₂ s₁ s₂ harrives hc hstep ih =>
      obtain ⟨known, htrack, htracks⟩ := ih
      obtain ⟨data, returned, hdata, -, hkeep⟩ := step_ok hstep
      obtain ⟨known', hcheck, htracks'⟩ := htracks.step hdata hkeep
      obtain ⟨hi, rfl⟩ := List.getElem?_eq_some_iff.mp hc
      have hlength : (commands.take i).length = i := by simp; omega
      refine ⟨known', ?_, htracks'⟩
      rw [List.take_succ_eq_append_getElem hi, trackFrom_concat, htrack, Except.ok_bind, hlength, Nat.zero_add]
      exact hcheck

/-! ## Soundness -/

/-- Why a command of an accepted run can fail. -/
theorem Arrives.error {c : Command} {e : RunError} {slots₂ : Slots} {s₂ : σ}
    (hcheck : checkFrom 0 (some slots.size) commands = .ok ())
    (h : Arrives host commands slots s i slots' s') (hc : commands[i]? = some c)
    (hstep : (step i c slots').run host s' = ((.error e, slots₂), s₂)) :
    e.IsMismatch ∨ (∃ payload, e = .calleeFailure i payload) ∨
      (∃ slot count, e = .slotOutOfRange slot count) ∧ Replaced commands i ∨
      (∃ count, e = .tooManySlots count) ∧ Replaced commands (i + 1) := by
  obtain ⟨known, htrack, htracks⟩ := h.tracks
  obtain ⟨known', hknown⟩ := checkCommand_of_checkFrom hcheck hc htrack
  have hnone := trackFrom_take_eq_none htrack
  rcases htracks.step_error hknown hstep with hmismatch | hcallee | ⟨hslot, hunknown⟩ | ⟨hmany, hunknown⟩
  · exact .inl hmismatch
  · exact .inr (.inl hcallee)
  · exact .inr (.inr (.inl ⟨hslot, hnone.mp hunknown⟩))
  · exact .inr (.inr (.inr ⟨hmany, (replaced_succ hc).mpr (hunknown.imp_left hnone.mp)⟩))

theorem failure_of_start {e : RunError} (hcheck : checkFrom 0 (some slots.size) commands = .ok ())
    (host : Host σ) (s : σ) (h : ((Run.start { commands, slots }).run host s).1.1 = .error e) :
    let pc := ((Run.start { commands, slots }).run host s).1.2.pc
    e.IsMismatch ∨ (∃ payload, e = .calleeFailure pc payload) ∨
      (∃ slot count, e = .slotOutOfRange slot count) ∧ Replaced commands pc ∨
      (∃ count, e = .tooManySlots count) ∧ Replaced commands (pc + 1) := by
  obtain ⟨c, s₁, s₂, harrives, hc, hstep⟩ := start_error host slots s h
  exact harrives.error hcheck hc hstep

/-- The checks are sound. Whatever the host answers, a run that was accepted never lacks a value slot;
it refers to a slot that does not exist only behind a command that replaced all slots; it has too many
slots only at or behind such a command; and up to the first such command it arrives at each position
with the number of slots that the checks have counted there. -/
theorem start_of_load {state : List Bytes} {r : Run} (h : load commands state = .ok r)
    (host : Host σ) (s : σ) :
    let ended := (r.start.run host s).1
    (∀ index, ended.1 ≠ .error (.missingValueSlot index)) ∧
    (∀ slot available, ended.1 = .error (.slotOutOfRange slot available) →
      Replaced commands ended.2.pc) ∧
    (∀ count, ended.1 = .error (.tooManySlots count) → Replaced commands (ended.2.pc + 1)) ∧
    ∀ i slots s', Arrives host commands r.slots s i slots s' → ¬ Replaced commands i →
      trackFrom 0 (some state.length) (commands.take i) = .ok (some slots.size) := by
  obtain ⟨slots, hslots, hcheck, rfl⟩ := load_ok h
  have hsize : slots.size = state.length := by rw [Slots.size, Slots.ofList_ok hslots]
  have hfrom : checkFrom 0 (some slots.size) commands = .ok () := by
    unfold check at hcheck
    split at hcheck
    · cases hcheck
    · exact hcheck
  refine ⟨fun index he => ?_, fun slot available he => ?_, fun count he => ?_, ?_⟩
  · simpa [RunError.IsMismatch] using failure_of_start hfrom host s he
  · simpa [RunError.IsMismatch] using failure_of_start hfrom host s he
  · simpa [RunError.IsMismatch] using failure_of_start hfrom host s he
  · intro i slots' s' harrives hnot
    obtain ⟨known, htrack, htracks⟩ := harrives.tracks
    rw [hsize] at htrack
    cases known with
    | none => exact absurd ((trackFrom_take_eq_none htrack).mp rfl) hnot
    | some count => rw [htrack, htracks count rfl]

/-- A run whose only slot is gone after its first command. -/
theorem start_of_load_shrinking :
    let shrink := Command.make .call .fallback default [] .replaceState 0
    let read := Command.make .call .fallback default [.static 0] .discard 0
    let host : Host Unit := fun _ s => (.success (Abi.encode [.bytesArray []]), s)
    ∃ r, load [shrink, read] [[]] = .ok r ∧
      (r.start.run host ()).1.1 = .error (.slotOutOfRange 0 0) ∧
      Replaced [shrink, read] (r.start.run host ()).1.2.pc :=
  ⟨_, rfl, rfl, (@start_of_load Unit _ [[]] _ rfl _ ()).2.1 0 0 rfl⟩

/-! ## Completeness -/

/-- Runs records without any check: each is read when its turn comes. -/
def uncheckedSteps (index : Nat) (slots : Slots) : List Bytes → Dialogue Finish
  | [] => .done ⟨slots, index, none⟩
  | raw :: rest =>
    match Command.decode index raw with
    | .error e => .note (.aborted index e) (.done ⟨slots, index, some e⟩)
    | .ok c =>
      (step index c slots).bind fun
        | (.error e, slots) => .note (.aborted index e) (.done ⟨slots, index, some e⟩)
        | (.ok (), slots) => uncheckedSteps (index + 1) slots rest

/-- Runs records over a state without any check, and gives the final state. -/
def unchecked (records state : List Bytes) : Dialogue (Except RunError (List Bytes)) :=
  match Slots.ofList state with
  | .error e => .done (.error e)
  | .ok slots => (uncheckedSteps 0 slots records).bind fun finish => .done finish.result

theorem uncheckedSteps_of_decode {index : Nat} {records : List Bytes}
    (h : Command.decodeFrom index records = .ok commands) (slots : Slots) :
    uncheckedSteps index slots records = steps index slots commands := by
  induction records generalizing index commands slots with
  | nil => cases h; rfl
  | cons raw rest ih =>
      obtain ⟨c, hdecode, h⟩ := Except.bind_eq_ok.mp h
      obtain ⟨commands', hrest, hpure⟩ := Except.bind_eq_ok.mp h
      cases hpure
      simp only [uncheckedSteps, hdecode, steps]
      congr 1
      funext ended
      rcases ended with ⟨e | _, slots'⟩
      · rfl
      · exact ih hrest slots'

theorem uncheckedSteps_of_decode_error {index : Nat} {records : List Bytes} {e : RunError}
    (h : Command.decodeFrom index records = .error e) (host : Host σ) (slots : Slots) (s : σ) :
    ((uncheckedSteps index slots records).run host s).1.error? ≠ none := by
  induction records generalizing index slots s with
  | nil => cases h
  | cons raw rest ih =>
      rw [uncheckedSteps]
      cases hdecode : Command.decode index raw with
      | error e' => simp [Dialogue.run]
      | ok c =>
          simp only [Dialogue.run_bind]
          rcases (step index c slots).run host s with ⟨⟨e' | _, slots'⟩, s'⟩
          · simp [Dialogue.run]
          · refine ih ?_ slots' s'
            simp only [Command.decodeFrom, hdecode, Except.ok_bind] at h
            rcases Except.bind_eq_error.mp h with hrest | ⟨_, -, hpure⟩
            · exact hrest
            · cases hpure

/-- Commands that come to their end have passed the checks. -/
theorem check_of_completed (h : ((steps 0 slots commands).run host s).1.error? = none) :
    check commands slots.size = .ok () := by
  have hends := ends_steps host commands slots s
  generalize (steps 0 slots commands).run host s = ended at h hends
  obtain ⟨finish, s'⟩ := ended
  cases hends with
  | completed harrives =>
      obtain ⟨known, htrack, -⟩ := harrives.tracks
      rw [List.take_length] at htrack
      have hfrom := checkFrom_append 0 (some slots.size) commands []
      rw [List.append_nil, htrack] at hfrom
      have hsize : ¬ slots.size > maxSlots := Nat.not_lt.mpr slots.length_le
      rw [check, if_neg hsize, hfrom]
      rfl
  | aborted harrives hc hstep => cases h

/-- What the checks refuse does not come to its end. -/
theorem unchecked_of_refused {records state : List Bytes} {e : RunError}
    (h : ofRecords records state = .error e) (host : Host σ) (s : σ) (values : List Bytes) :
    ((unchecked records state).run host s).1 ≠ .ok values := by
  unfold unchecked
  cases hslots : Slots.ofList state with
  | error e => simp [Dialogue.run]
  | ok slots =>
      -- A record that cannot be read stops the run when its turn comes; a check that fails would have
      -- been passed by a run that comes to its end.
      have hfails : ((uncheckedSteps 0 slots records).run host s).1.error? ≠ none := by
        cases hdecode : Command.decodeAll records with
        | error e' => exact uncheckedSteps_of_decode_error hdecode host slots s
        | ok commands =>
            rw [uncheckedSteps_of_decode hdecode]
            intro hnone
            simp [ofRecords, load, hdecode, hslots, check_of_completed hnone] at h
      simp only [Dialogue.run_bind, Dialogue.run, Finish.result]
      split
      · contradiction
      · simp

/-- What the checks accept is run as without them. -/
theorem execute_eq_unchecked {records state : List Bytes} {r : Run}
    (h : ofRecords records state = .ok r) : execute records state = unchecked records state := by
  obtain ⟨commands, hdecode, hload⟩ := Except.bind_eq_ok.mp h
  obtain ⟨slots, hslots, -, rfl⟩ := load_ok hload
  rw [execute_eq h, unchecked, hslots, ← uncheckedSteps_of_decode hdecode slots]

/-- Running records ends well exactly if it does so without the checks, and then the host is asked the
same. What the checks refuse is refused before the host is asked anything, and would not have ended
well with any host. -/
theorem execute_iff_unchecked (records state : List Bytes) :
    (∀ e, ofRecords records state = .error e →
      ∀ {σ : Type} (host : Host σ) (s : σ),
        (execute records state).run host s = (.error e, s) ∧
        (execute records state).messages host s = [] ∧
        ∀ values, ((unchecked records state).run host s).1 ≠ .ok values) ∧
    ∀ {σ : Type} (host : Host σ) (s : σ) (values : List Bytes),
      (((execute records state).run host s).1 = .ok values ↔
        ((unchecked records state).run host s).1 = .ok values) ∧
      (((execute records state).run host s).1 = .ok values →
        (execute records state).messages host s = (unchecked records state).messages host s ∧
        ((execute records state).run host s).2 = ((unchecked records state).run host s).2) := by
  cases hload : ofRecords records state with
  | error e =>
      have hrefused := execute_of_error hload
      refine ⟨fun e' he σ host s => ?_, fun host s values => ?_⟩
      · cases he
        exact ⟨by rw [hrefused]; rfl, by rw [hrefused]; rfl, unchecked_of_refused hload host s⟩
      · have hnot := unchecked_of_refused hload host s values
        simp [hrefused, Dialogue.run, hnot]
  | ok r =>
      refine ⟨fun e he => (by cases he), fun host s values => ?_⟩
      rw [execute_eq_unchecked hload]
      exact ⟨Iff.rfl, fun _ => ⟨rfl, rfl⟩⟩

-- A call whose result is added as a second slot, with and without the checks.
example :
    let call := (Command.make .call .fallback default [.static 0] (.static 1) 0).toRecord.bytes
    let host : Host Nat := fun _ n => (.success (Word.ofNat n).bytes, n + 1)
    let ended : Except RunError (List Bytes) × Nat := (.ok [(Word.ofNat 7).bytes, (Word.ofNat 5).bytes], 6)
    (execute [call] [(Word.ofNat 7).bytes]).run host 5 = ended ∧
      (unchecked [call] [(Word.ofNat 7).bytes]).run host 5 = ended :=
  ⟨rfl, rfl⟩

end Run

end CallScript
