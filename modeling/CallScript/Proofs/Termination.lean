import CallScript.Proofs.Machine
import CallScript.Proofs.Nested

/-!
# Calls come to an end

Code that is called may call again, and a script may run itself. Every call is still answered after
finitely many steps, because each call made by code is one deeper, and no code runs beyond the deepest call
that is made.
-/

namespace CallScript

namespace Machine

variable {α : Type} {contracts : Contracts} {root : Frame}

/-! ## No endless runs -/

theorem exists_halted_of_inside (next : Outcome → Action α) (waiting : List Suspended) (code : Activation)
    (action : Action Bytes) (s : Session) :
    ∃ result s', Reaches contracts root (.inside code action s waiting next) (.halted result s') := by
  induction waiting generalizing code action s with
  | nil => exact ⟨_, _, (reaches_resume next code action s []).trans (reaches_halted _ _)⟩
  | cons caller waiting ih =>
      obtain ⟨result, s', hhalted⟩ := ih caller.toActivation (caller.next _) _
      exact ⟨result, s', (reaches_resume next code action s (caller :: waiting)).trans hhalted⟩

theorem exists_halted (m : Machine α) : ∃ result s, Reaches contracts root m (.halted result s) := by
  cases m with
  | outside action s => exact ⟨_, _, reaches_halted action s⟩
  | inside code action s waiting next => exact exists_halted_of_inside next waiting code action s
  | halted result s => exact ⟨result, s, .refl⟩

/-- No state of the machine goes on for ever. -/
theorem wellFounded_next? (contracts : Contracts) (root : Frame) :
    WellFounded fun after before : Machine α => before.next? contracts root = some after := by
  refine ⟨fun m => ?_⟩
  obtain ⟨result, s, hhalted⟩ : ∃ result s, Reaches contracts root m (.halted result s) := exists_halted m
  induction hhalted using Relation.ReflTransGen.head_induction_on with
  | refl => exact ⟨_, fun after hnext => by cases hnext⟩
  | head hstep _ ih =>
      refine ⟨_, fun after hnext => ?_⟩
      cases hstep.symm.trans hnext
      exact ih

/-! ## Depths -/

/-- The code that is at work or waits, innermost first. -/
def activations : Machine α → List Activation
  | .outside .. => []
  | .inside code _ _ waiting _ => code :: waiting.map (·.toActivation)
  | .halted .. => []

end Machine

/-- Depths count the calls under way, and do not pass the deepest one that is made. -/
def Activation.Counted : List Activation → Prop
  | [] => True
  | code :: rest => code.depth = rest.length + 1 ∧ code.depth ≤ maxDepth ∧ Counted rest

theorem Activation.Counted.depth_mem {stack : List Activation} (h : Counted stack) :
    ∀ code ∈ stack, 1 ≤ code.depth ∧ code.depth ≤ maxDepth := by
  induction stack with
  | nil => simp
  | cons code rest ih =>
      obtain ⟨hdepth, hlimit, hrest⟩ := h
      simp only [List.forall_mem_cons]
      exact ⟨⟨by omega, hlimit⟩, ih hrest⟩

namespace Machine

variable {α : Type} {contracts : Contracts} {root : Frame}

open Activation (Counted)

theorem counted_resume {next : Outcome → Action α} {waiting : List Suspended}
    (h : Counted (waiting.map (·.toActivation))) (answer : Outcome × Session) :
    Counted (resume next waiting answer).activations := by
  cases waiting with
  | nil => trivial
  | cons caller waiting => exact h

theorem counted_next? {m m' : Machine α} (h : Counted m.activations)
    (hnext : m.next? contracts root = some m') : Counted m'.activations := by
  cases m with
  | outside action s =>
      rw [next?] at hnext
      split at hnext
      · cases hnext
        trivial
      · cases hnext
        trivial
      · split at hnext
        · cases hnext
          trivial
        · next henter =>
          cases hnext
          obtain ⟨hdepth, hlimit⟩ := Frame.depth_of_enter henter
          exact ⟨hdepth, hdepth ▸ hlimit, trivial⟩
  | inside code action s waiting next =>
      rw [next?] at hnext
      split at hnext
      · cases hnext
        exact counted_resume h.2.2 _
      · cases hnext
        exact h
      · split at hnext
        · cases hnext
          exact h
        · next henter =>
          cases hnext
          obtain ⟨hdepth, hlimit⟩ := Frame.depth_of_enter henter
          exact ⟨by simpa [hdepth] using h.1, hdepth ▸ hlimit, h⟩
  | halted result s => cases hnext

theorem Reaches.counted {m m' : Machine α} (h : Reaches contracts root m m')
    (hm : Counted m.activations) : Counted m'.activations := by
  induction h with
  | refl => exact hm
  | tail _ hnext ih => exact counted_next? ih hnext

end Machine

/-! ## Scripts that run themselves -/

/-- A script whose slot holds its own record is run again and again, until there is no room for another
call. -/
theorem Flat.run_itself {contracts : Contracts} {executor : Address} {slots : Slots} {slot : UInt8}
    (hexecutor : contracts.get? executor = some .executor)
    (hslot : slots.values[slot.toNat]? = some (Command.nested executor slot).toRecord.bytes)
    (hfits : Abi.Addressable [.bytes (Command.nested executor slot).toRecord.bytes, .bytesArray slots.values])
    (room : Nat) (frame : Frame) (before : Flat) :
    ((CallScript.execute [(Command.nested executor slot).toRecord.bytes] slots.values).run
      (dispatch contracts room frame) before).1 = .error (.calleeFailure 0 depthExceeded) := by
  induction room with
  | zero =>
      have hcheck := Command.check_nested executor (List.getElem?_eq_some_iff.mp hslot).1
      rw [Run.run_execute_singleton hcheck, Run.run_step, Command.callData_nested executor hslot]
      rfl
  | succ room ih =>
      -- The records in the slot are those that are run, with one call less of room.
      have hrecords : [(Command.nested executor slot).toRecord].flatMap (·.bytes) =
          (Command.nested executor slot).toRecord.bytes := List.flatMap_singleton ..
      rw [← hrecords] at hslot hfits
      have hrun := run_nested hexecutor (fun _ => rfl) hslot hfits room frame before
      simp only [List.map_cons, List.map_nil] at hrun
      rw [hrun]
      generalize Dialogue.run (dispatch contracts room frame) _ before = ended at ih ⊢
      obtain ⟨result, s⟩ := ended
      cases ih
      rfl

/-! ## Worlds -/

namespace World

variable {w : World} {caller account executor : Address} {value : Word} {store : Store}

theorem execute_itself {slots : Slots} {slot : UInt8}
    (hexecutor : w.contracts.get? executor = some .executor)
    (hslot : slots.values[slot.toNat]? = some (Command.nested executor slot).toRecord.bytes)
    (hfits : Abi.Addressable [.bytes (Command.nested executor slot).toRecord.bytes, .bytesArray slots.values])
    (hpaid : payForRun w.session.opened.store caller account value = .ok store) :
    (w.execute caller account [(Command.nested executor slot).toRecord.bytes] slots.values value).1 =
      .error (.calleeFailure 0 depthExceeded) := by
  have hflat := congrArg Prod.fst
    (w.flat_execute caller account [(Command.nested executor slot).toRecord.bytes] slots.values value)
  have hopened : w.session.opened.flat w.events = w.flat := Session.flat_opened [] w.session
  have hrun := Flat.run_itself hexecutor hslot hfits maxDepth (.root caller account value)
    (Session.flat w.events { w.session.opened with store })
  refine hflat.symm.trans ?_
  rw [← hopened, Flat.execute, flat_payForRun, hpaid]
  simp only [Except.map]
  generalize Dialogue.run (Flat.dispatch w.contracts maxDepth _) _ _ = ended at hrun ⊢
  obtain ⟨result, s⟩ := ended
  cases hrun
  rfl

/-- The world after a run that was paid for and has ended like this. -/
def concluded (w : World) (account : Address) (result : Except RunError (List Bytes)) (inner : Session) :
    World :=
  match result with
  | .ok values =>
    let s := w.session.adopt inner
    w.resume { s with journal := s.journal ++ [.completed account values.length inner.events.length] }
  | .error e =>
    let s := w.session.abandon inner
    w.resume { s with journal := s.journal ++ [.reverted account e] }

theorem execute_of_paid (records state : List Bytes)
    (hpaid : payForRun w.session.opened.store caller account value = .ok store) :
    w.execute caller account records state value =
      let ended := (CallScript.execute records state).hold
        (dispatchFrom w.contracts 0 (.root caller account value)) { w.session.opened with store }
      (ended.1, w.concluded account ended.1 ended.2) := by
  simp only [World.execute, hpaid]
  generalize Dialogue.hold _ _ _ = ended
  rcases ended with ⟨e | values, inner⟩ <;> rfl

theorem reaches_call (w : World) (caller : Address) (message : Message) :
    ∃ s, Machine.Reaches w.contracts (.root caller caller .zero) (.outside (.call message .done) w.session)
        (.halted (.ok (w.call caller message).1) s) ∧ (w.call caller message).2 = w.resume s :=
  ⟨_, Machine.reaches_halted .., rfl⟩

theorem reaches_execute (w : World) (caller account : Address) (records state : List Bytes)
    (value : Word) :
    (∃ e, payForRun w.session.opened.store caller account value = .error e ∧
      w.execute caller account records state value = (.error e, w)) ∨
    ∃ store result inner, payForRun w.session.opened.store caller account value = .ok store ∧
      Machine.Reaches w.contracts (.root caller account value)
        (.outside (.ofDialogue (CallScript.execute records state)) { w.session.opened with store })
        (.halted (.ok result) inner) ∧
      w.execute caller account records state value = (result, w.concluded account result inner) := by
  cases hpaid : payForRun w.session.opened.store caller account value with
  | error e => exact .inl ⟨e, rfl, by simp only [World.execute, hpaid]⟩
  | ok store =>
      have hhalted : Machine.Reaches w.contracts (.root caller account value)
        (.outside (.ofDialogue (CallScript.execute records state)) { w.session.opened with store }) _ :=
        Machine.reaches_halted ..
      rw [Action.perform_ofDialogue] at hhalted
      exact .inr ⟨store, _, _, rfl, hhalted, execute_of_paid records state hpaid⟩

/-- Calls and runs of a world terminate, whatever code is called and whatever it is sent to run. The machine
has no endless runs, a call and a run from outside reach their end in it with the result that the world
gives, code is at work at depths 1 to 64 only, and a call at depth 65 fails and leaves its session as it is.
So does in the end a script that runs itself. -/
theorem reentrancy_terminates (w : World) :
    (∀ (α : Type) (root : Frame),
      WellFounded fun after before : Machine α => before.next? w.contracts root = some after) ∧
    (∀ (caller : Address) (message : Message), ∃ s,
      Machine.Reaches w.contracts (.root caller caller .zero) (.outside (.call message .done) w.session)
        (.halted (.ok (w.call caller message).1) s) ∧ (w.call caller message).2 = w.resume s) ∧
    (∀ (caller account : Address) (records state : List Bytes) (value : Word),
      (∃ e, payForRun w.session.opened.store caller account value = .error e ∧
        w.execute caller account records state value = (.error e, w)) ∨
      ∃ store result inner, payForRun w.session.opened.store caller account value = .ok store ∧
        Machine.Reaches w.contracts (.root caller account value)
          (.outside (.ofDialogue (CallScript.execute records state)) { w.session.opened with store })
          (.halted (.ok result) inner) ∧
        w.execute caller account records state value = (result, w.concluded account result inner)) ∧
    (∀ (α : Type) (root : Frame) (action : Action α) (s : Session) (m : Machine α),
      Machine.Reaches w.contracts root (.outside action s) m →
      ∀ code ∈ m.activations, 1 ≤ code.depth ∧ code.depth ≤ 64) ∧
    (∀ (parent : Frame) (message : Message) (s : Session),
      parent.enter w.contracts 65 message s = .answered (.failure (.reason "call depth exceeded")) s ∧
        dispatchFrom w.contracts 64 parent message s = (.failure (.reason "call depth exceeded"), s)) ∧
    ∀ (caller account executor : Address) (slots : Slots) (slot : UInt8) (value : Word) (store : Store),
      w.contracts.get? executor = some .executor →
      slots.values[slot.toNat]? = some (Command.nested executor slot).toRecord.bytes →
      Abi.Addressable [.bytes (Command.nested executor slot).toRecord.bytes, .bytesArray slots.values] →
      payForRun w.session.opened.store caller account value = .ok store →
      (w.execute caller account [(Command.nested executor slot).toRecord.bytes] slots.values value).1 =
        .error (.calleeFailure 0 (.reason "call depth exceeded")) := by
  refine ⟨fun α root => Machine.wellFounded_next? w.contracts root, w.reaches_call, w.reaches_execute,
    ?_, fun parent message s => ⟨rfl, rfl⟩, ?_⟩
  · intro α root action s m hreaches
    exact (hreaches.counted trivial).depth_mem
  · intro caller account executor slots slot value store hexecutor hslot hfits hpaid
    exact execute_itself hexecutor hslot hfits hpaid

/-- Code that is entered from outside, and a script that runs itself. -/
theorem reentrancy_terminates_itself :
    let w := World.empty.deploy default .executor
    let record := (Command.nested default 0).toRecord.bytes
    let call : Action Outcome := .call { kind := .call, target := default, input := [] } .done
    (∃ m, Machine.Reaches w.contracts (.root default default .zero) (.outside call w.session) m ∧
      m.activations.length = 1 ∧ ∀ code ∈ m.activations, 1 ≤ code.depth ∧ code.depth ≤ 64) ∧
    (w.execute default default [record] [record] .zero).1 =
      .error (.calleeFailure 0 (.reason "call depth exceeded")) := by
  intro w record call
  obtain ⟨-, -, -, hdepth, -, hitself⟩ := reentrancy_terminates w
  have hfits : Abi.Addressable [.bytes record, .bytesArray [record]] := by decide +kernel
  have hentered : Machine.Reaches w.contracts (.root default default .zero) (.outside call w.session)
    (.inside _ _ _ [] .done) := .single rfl
  exact ⟨⟨_, hentered, rfl, hdepth _ _ _ _ _ hentered⟩,
    hitself default default default ⟨[record], by decide⟩ 0 .zero _ rfl rfl hfits rfl⟩

end World

end CallScript
