import CallScript.Proofs.Run.Checks

/-!
# What a run sends and what it leaves

A run makes one call for each command, in order, up to the first command that fails. What it sends is
built from the slots that the commands before have left. The command that fails leaves the slots as
they were, and a run that is over stays as it is.
-/

namespace CallScript

/-! ## One command -/

namespace Command

/-- Only a value call sends a value. -/
theorem kind_of_callData {index : Nat} {c : Command} {slots : Slots} {data : CallData}
    (h : c.callData index slots = .ok data) (hvalue : data.value ≠ .zero) : c.kind = .value := by
  obtain ⟨⟨value, args⟩, hsplit, h⟩ := Except.bind_eq_ok.mp h
  obtain ⟨tokens, -, hpure⟩ := Except.bind_eq_ok.mp h
  cases hpure
  unfold splitValue at hsplit
  split at hsplit
  · assumption
  · cases hsplit
    exact absurd rfl hvalue

end Command

/-- All slots but the one that an output names are left as they were. -/
def Output.Leaves (slots slots' : Slots) : Output → Prop
  | .discard => slots' = slots
  | .replaceState => True
  | .static slot | .dynamic slot => ∀ j, j ≠ slot.toNat → slots'.values[j]? = slots.values[j]?

theorem Slots.getElem?_set {slots slots' : Slots} {slot : UInt8} {value : Bytes}
    (h : slots.set slot value = (.ok (), slots')) (j : Nat) (hj : j ≠ slot.toNat) :
    slots'.values[j]? = slots.values[j]? := by
  unfold set at h
  split at h
  · cases h
    exact List.getElem?_set_ne (Ne.symm hj)
  · split at h
    · next hsize =>
      split at h
      · cases h
        rw [List.getElem?_append]
        split
        · rfl
        · next hlt =>
          have hlength : slots.values.length < j := by rw [hsize, size] at hj; omega
          rw [List.getElem?_eq_none (by simp; omega), List.getElem?_eq_none (by omega)]
      · cases h
    · cases h

theorem Command.leaves_of_keep {c : Command} {slots slots' : Slots} {returned : Bytes}
    (h : c.keep slots returned = (.ok (), slots')) : c.output.Leaves slots slots' := by
  unfold keep at h
  cases houtput : c.output with
  | discard =>
      simp only [houtput] at h
      cases h
      rfl
  | replaceState => trivial
  | static slot =>
      simp only [houtput] at h
      obtain ⟨value, -, hset⟩ := Slots.put_ok h
      exact Slots.getElem?_set hset
  | dynamic slot =>
      simp only [houtput] at h
      obtain ⟨value, -, hset⟩ := Slots.put_ok h
      exact Slots.getElem?_set hset

namespace Run

variable {σ : Type} {host : Host σ} {commands : List Command} {slots slots' : Slots} {s s' : σ} {i : Nat}

/-- How the command at a position fails: while its input is built, in its call, or when it keeps what
came back. The numbers are those of the calls it has made. -/
inductive Fails (host : Host σ) (i : Nat) (c : Command) (slots : Slots) (s : σ) :
    RunError → Nat → σ → Prop
  | building {e : RunError} : c.callData i slots = .error e → Fails host i c slots s e 0 s
  | calling {data : CallData} {payload : RevertData} {s' : σ} :
      c.callData i slots = .ok data → host (message c data) s = (.failure payload, s') →
      Fails host i c slots s (.calleeFailure i payload) 1 s'
  | keeping {data : CallData} {returned : Bytes} {s' : σ} {e : RunError} :
      c.callData i slots = .ok data → host (message c data) s = (.success returned, s') →
      (c.keep slots returned).1 = .error e → Fails host i c slots s e 1 s'

theorem Fails.run_step {c : Command} {e : RunError} {calls : Nat} (h : Fails host i c slots s e calls s') :
    (step i c slots).run host s = ((.error e, slots), s') := by
  rw [Run.run_step]
  cases h with
  | building hdata => simp only [hdata]
  | calling hdata hhost => simp only [hdata, hhost]
  | @keeping _ returned _ _ hdata hhost hkeep =>
      have hkept : c.keep slots returned = (.error e, (c.keep slots returned).2) := Prod.ext hkeep rfl
      simp only [hdata, hhost]
      rw [hkept, Command.eq_of_keep_error hkept]

theorem messages_step (host : Host σ) (i : Nat) (c : Command) (slots : Slots) (s : σ) :
    (step i c slots).messages host s =
      match c.callData i slots with
      | .error _ => []
      | .ok data => [message c data] := by
  unfold step
  cases c.callData i slots with
  | error e => rfl
  | ok data =>
      simp only [Dialogue.messages, message]
      rcases host ⟨c.kind, c.target, data.input, data.value⟩ s with ⟨returned | payload, s'⟩ <;> rfl

/-- A command that does not succeed fails in one of three ways, behind as many calls as it has sent. -/
theorem fails_of_step {c : Command} {e : RunError}
    (h : (step i c slots).run host s = ((.error e, slots'), s')) :
    Fails host i c slots s e ((step i c slots).messages host s).length s' := by
  rw [messages_step]
  rw [Run.run_step] at h
  cases hdata : c.callData i slots with
  | error e' =>
      simp only [hdata] at h
      cases h
      exact .building hdata
  | ok data =>
      simp only [hdata] at h
      rcases hhost : host (message c data) s with ⟨returned | payload, s₁⟩
      · simp only [hhost, Prod.mk.injEq] at h
        obtain ⟨hkeep, rfl⟩ := h
        exact .keeping hdata hhost (congrArg Prod.fst hkeep)
      · simp only [hhost, Prod.mk.injEq, Except.error.injEq] at h
        obtain ⟨⟨rfl, -⟩, rfl⟩ := h
        exact .calling hdata hhost

/-! ## All commands -/

theorem messages_steps_cons (index : Nat) (slots : Slots) (c : Command) (rest : List Command)
    (host : Host σ) (s : σ) :
    (steps index slots (c :: rest)).messages host s =
      (step index c slots).messages host s ++
        match (step index c slots).run host s with
        | ((.error _, _), _) => []
        | ((.ok (), slots), s) => (steps (index + 1) slots rest).messages host s := by
  rw [steps, Dialogue.messages_bind]
  rcases (step index c slots).run host s with ⟨⟨e | _, slots'⟩, s'⟩ <;> rfl

/-- The message is the call of the command at position `i`. Its input is built from the slots with which
the run arrives there. -/
def CallAt (host : Host σ) (commands : List Command) (slots : Slots) (s : σ) (i : Nat) (m : Message) :
    Prop :=
  ∃ c data slots' s', Arrives host commands slots s i slots' s' ∧ commands[i]? = some c ∧
    c.callData i slots' = .ok data ∧ m = ⟨c.kind, c.target, data.input, data.value⟩ ∧
    (m.value ≠ .zero → m.kind = .value)

theorem callAt_message {c : Command} {data : CallData} (h : Arrives host commands slots s i slots' s')
    (hc : commands[i]? = some c) (hdata : c.callData i slots' = .ok data) :
    CallAt host commands slots s i (message c data) :=
  ⟨c, data, slots', s', h, hc, hdata, rfl, Command.kind_of_callData hdata⟩

/-- Each of these messages is the call of the command at its place. -/
def Calls (host : Host σ) (commands : List Command) (slots : Slots) (s : σ) (sent : List Message) : Prop :=
  ∀ i m, sent[i]? = some m → CallAt host commands slots s i m

theorem Calls.concat {sent : List Message} {m : Message} (h : Calls host commands slots s sent)
    (hlength : sent.length = i) (hm : CallAt host commands slots s i m) :
    Calls host commands slots s (sent ++ [m]) := by
  intro j m' hj
  rw [List.getElem?_append] at hj
  split at hj
  · exact h j m' hj
  · rw [List.getElem?_singleton] at hj
    split at hj
    · cases hj
      have hlast : j = i := by omega
      exact hlast ▸ hm
    · cases hj

/-- A run arrives at a position in one way only. -/
theorem Arrives.unique {slots₁ slots₂ : Slots} {s₁ s₂ : σ} (h : Arrives host commands slots s i slots₁ s₁)
    (h' : Arrives host commands slots s i slots₂ s₂) : slots₁ = slots₂ ∧ s₁ = s₂ := by
  induction h generalizing slots₂ s₂ with
  | start =>
      cases h'
      exact ⟨rfl, rfl⟩
  | next _ hc hstep ih =>
      cases h' with
      | next harrives hc' hstep' =>
          obtain ⟨rfl, rfl⟩ := ih harrives
          cases hc.symm.trans hc'
          cases hstep.symm.trans hstep'
          exact ⟨rfl, rfl⟩

/-- What a run has sent when it arrives at a position: one call for each command before it. What it does
from there on does not depend on how it got there. -/
theorem Arrives.split (h : Arrives host commands slots s i slots' s') :
    (steps 0 slots commands).run host s = (steps i slots' (commands.drop i)).run host s' ∧
    ∃ sent, sent.length = i ∧ Calls host commands slots s sent ∧
      (steps 0 slots commands).messages host s =
        sent ++ (steps i slots' (commands.drop i)).messages host s' := by
  induction h with
  | start => exact ⟨rfl, [], rfl, fun i m hi => by simp at hi, rfl⟩
  | @next i c slots₁ slots₂ s₁ s₂ harrives hc hstep ih =>
      obtain ⟨hrun, sent, hlength, hcalls, hsent⟩ := ih
      obtain ⟨data, returned, hdata, -, -⟩ := step_ok hstep
      obtain ⟨hi, rfl⟩ := List.getElem?_eq_some_iff.mp hc
      refine ⟨?_, sent ++ [message commands[i] data], by simp [hlength], ?_, ?_⟩
      · rw [hrun, List.drop_eq_getElem_cons hi, run_steps_cons, hstep]
      · exact hcalls.concat hlength (callAt_message harrives hc hdata)
      · rw [hsent, List.drop_eq_getElem_cons hi, messages_steps_cons, hstep, messages_step, hdata,
          List.append_assoc]

/-! ## Starting -/

/-- A command that fails ends the run: it stands there, with the slots that the command found. -/
theorem Arrives.start_of_fails {c : Command} {e : RunError} {calls : Nat} {s₂ : σ}
    (h : Arrives host commands slots s i slots' s') (hc : commands[i]? = some c)
    (hfails : Fails host i c slots' s' e calls s₂) :
    (Run.start { commands, slots }).run host s = ((.error e, ⟨commands, slots', i, .aborted⟩), s₂) := by
  obtain ⟨hi, rfl⟩ := List.getElem?_eq_some_iff.mp hc
  have hrun : (steps 0 slots commands).run host s = (⟨slots', i, some e⟩, s₂) := by
    rw [h.split.1, List.drop_eq_getElem_cons hi, run_steps_cons, hfails.run_step]
  rw [run_start, hrun]

theorem messages_start (commands : List Command) (slots : Slots) (host : Host σ) (s : σ) :
    (Run.start { commands, slots }).messages host s = (steps 0 slots commands).messages host s := by
  simp only [start, List.drop_zero, Dialogue.messages_bind]
  cases ((steps 0 slots commands).run host s).1.error? <;> simp [Dialogue.messages]

theorem start_of_over {r : Run} (h : r.status ≠ .ready) (host : Host σ) (s : σ) :
    r.start.run host s = ((.error (.notReady r.status), r), s) ∧ r.start.messages host s = [] := by
  unfold start
  split
  · contradiction
  · exact ⟨rfl, rfl⟩

/-- The calls of a run stand in the order of its commands, and there is one for each command up to the
end of the run, or up to the command that fails. -/
theorem calls_start (commands : List Command) (slots : Slots) (host : Host σ) (s : σ) :
    let sent := (Run.start { commands, slots }).messages host s
    let ended := (Run.start { commands, slots }).run host s
    Calls host commands slots s sent ∧
    ((∃ slots', Arrives host commands slots s commands.length slots' ended.2 ∧
        sent.length = commands.length ∧
        ended.1 = (.ok (), ⟨commands, slots', commands.length, .completed⟩)) ∨
      ∃ i c slots' s₁ e calls, Arrives host commands slots s i slots' s₁ ∧ commands[i]? = some c ∧
        Fails host i c slots' s₁ e calls ended.2 ∧ sent.length = i + calls ∧
        ended.1 = (.error e, ⟨commands, slots', i, .aborted⟩)) := by
  have hends := ends_steps host commands slots s
  intro sent ended
  have hsent : sent = (steps 0 slots commands).messages host s := messages_start commands slots host s
  have hended : ended = _ := run_start commands slots host s
  generalize (steps 0 slots commands).run host s = finish at hends hended
  obtain ⟨finish, s'⟩ := finish
  cases hends with
  | @completed slots' _ harrives =>
      obtain ⟨-, front, hlength, hcalls, hmessages⟩ := harrives.split
      have hfront : sent = front := by simpa [steps, Dialogue.messages, ← hsent] using hmessages
      rw [hended, hfront]
      exact ⟨hcalls, .inl ⟨slots', harrives, hlength, rfl⟩⟩
  | @aborted i c _ slots' s₁ _ e harrives hc hstep =>
      obtain rfl := (step_error hstep).1
      obtain ⟨-, front, hlength, hcalls, hmessages⟩ := harrives.split
      obtain ⟨hi, rfl⟩ := List.getElem?_eq_some_iff.mp hc
      have hfails := fails_of_step hstep
      have hfront : sent = front ++ (step i commands[i] slots').messages host s₁ := by
        rw [hsent, hmessages, List.drop_eq_getElem_cons hi, messages_steps_cons, hstep, List.append_nil]
      rw [hended, hfront, List.length_append, hlength]
      refine ⟨?_, .inr ⟨i, _, slots', s₁, e, _, harrives, hc, hfails, rfl, rfl⟩⟩
      rw [messages_step]
      cases hdata : commands[i].callData i slots' with
      | error e' => simpa using hcalls
      | ok data => exact hcalls.concat hlength (callAt_message harrives hc hdata)

/-- What an accepted run sends and what it leaves, whatever the host answers. Message `i` is the call of
command `i`, built from the slots that the commands before have left. The run ends behind its last
command, with one call for each; or at the first command that fails, with one call for each command
before it and one for itself unless its input could not be built. A command that fails leaves the run
at its position with the slots it found, and a host's failure is handed on as it is. An output changes
the slot that it names, or all of them, and none if what came back cannot be kept. The run arrives at each position in one way and never with too
many slots, and when it is over it cannot be started again. -/
theorem transcript_of_load {state : List Bytes} {r : Run} (h : load commands state = .ok r)
    (host : Host σ) (s : σ) :
    let sent := r.start.messages host s
    let ended := r.start.run host s
    (∀ i m, sent[i]? = some m → CallAt host commands r.slots s i m) ∧
    ((∃ slots', Arrives host commands r.slots s commands.length slots' ended.2 ∧
        sent.length = commands.length ∧
        ended.1 = (.ok (), ⟨commands, slots', commands.length, .completed⟩)) ∨
      ∃ i c slots' s₁ e calls, Arrives host commands r.slots s i slots' s₁ ∧ commands[i]? = some c ∧
        Fails host i c slots' s₁ e calls ended.2 ∧ sent.length = i + calls ∧
        ended.1 = (.error e, ⟨commands, slots', i, .aborted⟩)) ∧
    (∀ i c slots' s₁ e calls s₂, Arrives host commands r.slots s i slots' s₁ → commands[i]? = some c →
      Fails host i c slots' s₁ e calls s₂ →
      ended = ((.error e, ⟨commands, slots', i, .aborted⟩), s₂)) ∧
    (∀ (c : Command) (slots slots' : Slots) (returned : Bytes),
      (c.keep slots returned = (.ok (), slots') → c.output.Leaves slots slots') ∧
      ∀ e, c.keep slots returned = (.error e, slots') → slots' = slots) ∧
    (∀ i slots' s', Arrives host commands r.slots s i slots' s' → slots'.values.length ≤ maxSlots ∧
      ∀ slots'' s'', Arrives host commands r.slots s i slots'' s'' → slots'' = slots' ∧ s'' = s') ∧
    ∀ (τ : Type) (again : Host τ) (t : τ),
      ended.1.2.start.run again t = ((.error (.notReady ended.1.2.status), ended.1.2), t) ∧
      ended.1.2.start.messages again t = [] := by
  obtain ⟨slots, -, -, rfl⟩ := load_ok h
  obtain ⟨hcalls, hending⟩ := calls_start commands slots host s
  refine ⟨hcalls, hending, ?_, ?_, ?_, ?_⟩
  · intro i c slots' s₁ e calls s₂ harrives hc hfails
    exact harrives.start_of_fails hc hfails
  · intro c slots slots' returned
    exact ⟨Command.leaves_of_keep, fun e => Command.eq_of_keep_error⟩
  · intro i slots' s' harrives
    exact ⟨slots'.length_le, fun slots'' s'' hother => hother.unique harrives⟩
  · intro τ again t
    refine start_of_over ?_ again t
    rcases hending with ⟨slots', -, -, hended⟩ | ⟨i, c, slots', s₁, e, calls, -, -, -, -, hended⟩
    · simp [hended]
    · simp [hended]

/-- A run whose second command, a value call, is refused by its target: both calls have been made, and the
slot that the first one has added stays. -/
theorem transcript_of_load_refused :
    let first := Command.make .call .fallback default [.static 0] (.static 1) 0
    let second := Command.make .value .fallback default [.static 1] (.static 0) 0
    let host : Host Nat := fun _ n =>
      (if n = 0 then .success (Word.ofNat 5).bytes else .failure ⟨[0xde, 0xad]⟩, n + 1)
    ∃ r slots, load [first, second] [(Word.ofNat 7).bytes] = .ok r ∧
      slots.values = [(Word.ofNat 7).bytes, (Word.ofNat 5).bytes] ∧
      r.start.run host 0 =
        ((.error (.calleeFailure 1 ⟨[0xde, 0xad]⟩), ⟨[first, second], slots, 1, .aborted⟩), 2) :=
  ⟨_, ⟨[(Word.ofNat 7).bytes, (Word.ofNat 5).bytes], by decide⟩, rfl, rfl,
    (@transcript_of_load Nat _ [(Word.ofNat 7).bytes] _ rfl _ 0).2.2.1 1 _ _ 1 _ 1 2
      (.next .start rfl rfl) rfl (.calling rfl rfl)⟩

end Run

end CallScript
