import CallScript.Proofs.Run.Preflight

/-!
# Running one list of records after another

A list of records comes to its end when each of its commands does, one after the other. Nothing in
that depends on where the list begins, so two lists in a row come to their end exactly if the first
does and then the second, from the slots and the host that the first has left.
-/

namespace CallScript

/-! ## Positions -/

theorem Command.decode_ok_index {i : Nat} {raw : Bytes} {c : Command} (h : decode i raw = .ok c)
    (j : Nat) : decode j raw = .ok c := by
  unfold decode at h ⊢
  split at h
  · exact h
  · cases h

theorem Command.splitValue_ok_index {i : Nat} {c : Command} {slots : Slots} {split : Word × List Arg}
    (h : c.splitValue i slots = .ok split) (j : Nat) : c.splitValue j slots = .ok split := by
  unfold splitValue at h ⊢
  split at h
  · split at h
    · exact h
    · cases h
  · exact h

/-- The position of a command shows in its errors only. -/
theorem Command.callData_ok_index {i : Nat} {c : Command} {slots : Slots} {data : CallData}
    (h : c.callData i slots = .ok data) (j : Nat) : c.callData j slots = .ok data := by
  obtain ⟨split, hsplit, h⟩ := Except.bind_eq_ok.mp h
  exact Except.bind_eq_ok.mpr ⟨split, splitValue_ok_index hsplit j, h⟩

theorem Slots.eq_of_values {a b : Slots} (h : a.values = b.values) : a = b := by
  cases a
  cases b
  cases h
  rfl

namespace Run

variable {σ : Type} {host : Host σ} {slots slots' : Slots} {s s' : σ}

/-! ## Runs that come to their end -/

/-- The records come to their end: each command builds its input, its call succeeds, and what came back
is kept. The last argument is what the host was asked. -/
inductive Completes (host : Host σ) : List Bytes → Slots → σ → Slots → σ → List Message → Prop
  | nil {slots : Slots} {s : σ} : Completes host [] slots s slots s []
  | cons {raw : Bytes} {rest : List Bytes} {c : Command} {data : CallData} {returned : Bytes}
      {slots slots₁ slots' : Slots} {s s₁ s' : σ} {sent : List Message} :
      Command.decode 0 raw = .ok c → c.callData 0 slots = .ok data →
      host (message c data) s = (.success returned, s₁) → c.keep slots returned = (.ok (), slots₁) →
      Completes host rest slots₁ s₁ slots' s' sent →
      Completes host (raw :: rest) slots s slots' s' (message c data :: sent)

theorem completes_append {front back : List Bytes} {sent : List Message} :
    Completes host (front ++ back) slots s slots' s' sent ↔
      ∃ slots₁ s₁ sent₁ sent₂, Completes host front slots s slots₁ s₁ sent₁ ∧
        Completes host back slots₁ s₁ slots' s' sent₂ ∧ sent = sent₁ ++ sent₂ := by
  induction front generalizing slots s sent with
  | nil =>
      refine ⟨fun h => ⟨_, _, _, _, .nil, h, rfl⟩, ?_⟩
      rintro ⟨slots₁, s₁, sent₁, sent₂, hfront, hback, rfl⟩
      cases hfront
      exact hback
  | cons raw front ih =>
      constructor
      · intro h
        cases h with
        | cons hdecode hdata hhost hkeep hrest =>
            obtain ⟨slots₁, s₁, sent₁, sent₂, hfront, hback, rfl⟩ := ih.mp hrest
            exact ⟨slots₁, s₁, _, sent₂, .cons hdecode hdata hhost hkeep hfront, hback, rfl⟩
      · rintro ⟨slots₁, s₁, sent₁, sent₂, hfront, hback, rfl⟩
        cases hfront with
        | cons hdecode hdata hhost hkeep hfront =>
            exact .cons hdecode hdata hhost hkeep (ih.mpr ⟨slots₁, s₁, _, sent₂, hfront, hback, rfl⟩)

/-- Wherever records begin, running them without checks succeeds if they come to their end. -/
theorem Completes.uncheckedSteps {records : List Bytes} {sent : List Message}
    (h : Completes host records slots s slots' s' sent) (index : Nat) :
    (uncheckedSteps index slots records).run host s = (⟨slots', index + records.length, none⟩, s') ∧
      (uncheckedSteps index slots records).messages host s = sent := by
  induction h generalizing index with
  | nil => exact ⟨rfl, rfl⟩
  | @cons raw rest c data returned slots slots₁ slots' s s₁ s' sent hdecode hdata hhost hkeep _ ih =>
      have hstep : (step index c slots).run host s = ((.ok (), slots₁), s₁) := by
        rw [run_step, Command.callData_ok_index hdata index]
        simp only [hhost, hkeep]
      have hsent : (step index c slots).messages host s = [message c data] := by
        simp only [step, Command.callData_ok_index hdata index, Dialogue.messages]
        rw [← message, hhost]
        rfl
      obtain ⟨hrun, hmessages⟩ := ih (index + 1)
      simp only [Run.uncheckedSteps, Command.decode_ok_index hdecode index, Dialogue.run_bind,
        Dialogue.messages_bind, hstep, hsent]
      refine ⟨?_, ?_⟩
      · rw [hrun, List.length_cons]
        simp only [Nat.add_assoc, Nat.add_comm 1]
      · rw [hmessages, List.singleton_append]

/-- Running records without checks succeeds only if they come to their end. -/
theorem completes_of_uncheckedSteps {index : Nat} {records : List Bytes}
    (h : ((uncheckedSteps index slots records).run host s).1.error? = none) :
    ∃ slots' s' sent, Completes host records slots s slots' s' sent := by
  induction records generalizing index slots s with
  | nil => exact ⟨_, _, _, .nil⟩
  | cons raw rest ih =>
      rw [uncheckedSteps] at h
      cases hdecode : Command.decode index raw with
      | error e => simp [hdecode, Dialogue.run] at h
      | ok c =>
          simp only [hdecode, Dialogue.run_bind] at h
          rcases hstep : (step index c slots).run host s with ⟨⟨e | _, slots₁⟩, s₁⟩
          · simp [hstep, Dialogue.run] at h
          · obtain ⟨data, returned, hdata, hhost, hkeep⟩ := step_ok hstep
            rw [hstep] at h
            obtain ⟨slots', s', sent, hrest⟩ := ih h
            exact ⟨slots', s', _, .cons (Command.decode_ok_index hdecode 0)
              (Command.callData_ok_index hdata 0) hhost hkeep hrest⟩

/-! ## Executions -/

theorem run_unchecked_of_completes {records : List Bytes} {sent : List Message}
    (h : Completes host records slots s slots' s' sent) :
    (unchecked records slots.values).run host s = (.ok slots'.values, s') ∧
      (unchecked records slots.values).messages host s = sent := by
  obtain ⟨hrun, hsent⟩ := h.uncheckedSteps 0
  simp only [unchecked, Slots.ofList_values, Dialogue.run_bind, Dialogue.messages_bind, hrun, hsent]
  exact ⟨rfl, List.append_nil _⟩

/-- An execution succeeds if its records come to their end: the checks never stand in the way. -/
theorem execute_of_completes {records : List Bytes} {sent : List Message}
    (h : Completes host records slots s slots' s' sent) :
    (execute records slots.values).run host s = (.ok slots'.values, s') ∧
      (execute records slots.values).messages host s = sent := by
  obtain ⟨hrun, hsent⟩ := run_unchecked_of_completes h
  cases hload : ofRecords records slots.values with
  | error e =>
      refine absurd ?_ (unchecked_of_refused hload host s slots'.values)
      rw [hrun]
  | ok r => rw [execute_eq_unchecked hload]; exact ⟨hrun, hsent⟩

/-- An execution succeeds only if its records come to their end. -/
theorem completes_of_execute {records state values : List Bytes}
    (h : (execute records state).run host s = (.ok values, s')) :
    ∃ slots slots' sent, state = slots.values ∧ values = slots'.values ∧
      Completes host records slots s slots' s' sent := by
  cases hload : ofRecords records state with
  | error e =>
      rw [execute_of_error hload] at h
      cases h
  | ok r =>
      obtain ⟨commands, hdecode, hloaded⟩ := Except.bind_eq_ok.mp hload
      obtain ⟨slots, hslots, -, rfl⟩ := load_ok hloaded
      obtain rfl := Slots.ofList_ok hslots
      rw [execute_eq_unchecked hload] at h
      have hnone : ((uncheckedSteps 0 slots records).run host s).1.error? = none := by
        simp only [unchecked, hslots, Dialogue.run_bind, Dialogue.run, Finish.result, Prod.mk.injEq] at h
        obtain ⟨hresult, -⟩ := h
        split at hresult
        · assumption
        · cases hresult
      obtain ⟨slots', s₁, sent, hcompletes⟩ := completes_of_uncheckedSteps hnone
      obtain ⟨hrun, -⟩ := run_unchecked_of_completes hcompletes
      rw [hrun] at h
      cases h
      exact ⟨slots, slots', sent, rfl, rfl, hcompletes⟩

/-- Records that succeed where others have ended are run behind them as on their own. -/
theorem execute_append_of_execute {front back state middle values : List Bytes} {s₁ s₂ : σ}
    (hfront : (execute front state).run host s = (.ok middle, s₁))
    (hback : (execute back middle).run host s₁ = (.ok values, s₂)) :
    (execute (front ++ back) state).run host s = (.ok values, s₂) ∧
      (execute (front ++ back) state).messages host s =
        (execute front state).messages host s ++ (execute back middle).messages host s₁ := by
  obtain ⟨slots, slots₁, sent₁, rfl, rfl, hfirst⟩ := completes_of_execute hfront
  obtain ⟨slots₁', slots₂, sent₂, hvalues, rfl, hsecond⟩ := completes_of_execute hback
  obtain rfl := Slots.eq_of_values hvalues
  rw [(execute_of_completes hfirst).2, (execute_of_completes hsecond).2]
  exact execute_of_completes (completes_append.mpr ⟨_, _, _, _, hfirst, hsecond, rfl⟩)

/-- Two lists of records in a row succeed exactly if the first does and then the second, on the state
that the first has left and with the host as the first has left it. The host is then asked the same,
in the same order, and is left the same. -/
theorem execute_append (host : Host σ) (front back state values : List Bytes) (s s₂ : σ) :
    ((execute (front ++ back) state).run host s = (.ok values, s₂) ↔
      ∃ middle s₁, (execute front state).run host s = (.ok middle, s₁) ∧
        (execute back middle).run host s₁ = (.ok values, s₂)) ∧
    ∀ middle s₁, (execute front state).run host s = (.ok middle, s₁) →
      (execute back middle).run host s₁ = (.ok values, s₂) →
      (execute (front ++ back) state).messages host s =
        (execute front state).messages host s ++ (execute back middle).messages host s₁ := by
  refine ⟨⟨fun h => ?_, ?_⟩, fun middle s₁ hfront hback => (execute_append_of_execute hfront hback).2⟩
  · obtain ⟨slots, slots₂, sent, rfl, rfl, hboth⟩ := completes_of_execute h
    obtain ⟨slots₁, s₁, sent₁, sent₂, hfirst, hsecond, -⟩ := completes_append.mp hboth
    exact ⟨slots₁.values, s₁, (execute_of_completes hfirst).1, (execute_of_completes hsecond).1⟩
  · rintro ⟨middle, s₁, hfront, hback⟩
    exact (execute_append_of_execute hfront hback).1

-- The first call adds a slot, and the second reads it and writes over the one that was there.
example :
    let first := (Command.make .call .fallback default [.static 0] (.static 1) 0).toRecord.bytes
    let second := (Command.make .call .fallback default [.static 1] (.static 0) 0).toRecord.bytes
    let host : Host Nat := fun _ n => (.success (Word.ofNat n).bytes, n + 1)
    let words (numbers : List Nat) : List Bytes := numbers.map fun n => (Word.ofNat n).bytes
    (execute [first] (words [7])).run host 5 = (.ok (words [7, 5]), 6) ∧
      (execute [second] (words [7, 5])).run host 6 = (.ok (words [6, 5]), 7) ∧
      (execute ([first] ++ [second]) (words [7])).run host 5 = (.ok (words [6, 5]), 7) :=
  ⟨rfl, rfl, rfl⟩

end Run

end CallScript
