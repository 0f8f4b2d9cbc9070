import CallScript.Proofs.Flat
import CallScript.Proofs.Store

/-!
# Atomicity of calls

Calls work on overlays and on event lists of their own, which are handed down when they succeed. Seen
from outside this is the same as working on one flat map and putting it back after a failure: outcome,
bindings and events agree at every depth of nested calls. For a world it follows that a call or a run
takes effect as a whole or not at all.
-/

namespace CallScript

variable {κ : Type}

/-- A session seen from outside, when the events `before` lie below it. -/
def Session.flat (before : List Event) (s : Session) : Flat :=
  ⟨s.store.get?, before ++ s.events⟩

/-- A world seen from outside. -/
def World.flat (w : World κ) : Flat :=
  ⟨w.store.get?, w.events⟩

theorem World.flat_resume (w : World κ) (s : Session) : (w.resume s).flat = s.flat [] := rfl

/-- Two hosts that give the same answers and leave the same behind, seen from outside. -/
def Session.Simulates (before : List Event) (flatHost : Host Flat) (host : Host Session) : Prop :=
  ∀ message s, flatHost message (s.flat before) = (host message s).map id (Session.flat before)

/-! ## Reads and writes -/

theorem Store.get?_setStorage (s : Store) (account : Address) (key value : Word) :
    (s.setStorage account key value).get? =
      Function.update s.get? (storageKey account key)
        (if value.isZero then none else some value.bytes) := by
  unfold Store.setStorage
  split <;> simp

theorem Session.flat_setStorage (before : List Event) (s : Session) (account : Address)
    (key value : Word) :
    Session.flat before { s with store := s.store.setStorage account key value } =
      (s.flat before).setStorage account key value := by
  simp [Session.flat, Flat.setStorage, Flat.write, Store.get?_setStorage]

theorem Session.flat_emit (before : List Event) (s : Session) (event : Event) :
    Session.flat before { s with events := s.events ++ [event] } = (s.flat before).emit event := by
  simp [Session.flat, Flat.emit]

theorem Session.flat_setBalance (before : List Event) (s : Session) (account : Address)
    (amount : Word) :
    Session.flat before { s with store := s.store.setBalance account amount } =
      (s.flat before).setBalance account amount := by
  simp [Session.flat, Flat.setBalance, Flat.write, Store.setBalance]

theorem Session.flat_transfer (before : List Event) (s : Session) (sender receiver : Address)
    (amount : Word) :
    (s.flat before).transfer sender receiver amount =
      (s.store.transfer sender receiver amount).map id
        fun store => Session.flat before { s with store } := by
  have hbalance (s : Session) (account : Address) :
      (s.flat before).balance account = s.store.balance account := rfl
  unfold Flat.transfer Store.transfer
  rw [hbalance]
  cases (s.store.balance sender).sub? amount with
  | none => rfl
  | some remaining =>
      simp only [← Session.flat_setBalance, hbalance]
      cases ((s.store.setBalance sender remaining).balance receiver).add? amount <;> rfl

theorem Session.flat_payFor (before : List Event) (s : Session) (parent : Frame)
    (message : Message) :
    Flat.payFor parent message (s.flat before) =
      (parent.payFor message s.store).map id fun store => Session.flat before { s with store } := by
  unfold Flat.payFor Frame.payFor
  split
  · split
    · rfl
    · exact Session.flat_transfer ..
  · rfl

/-! ## Code and dialogues -/

variable {before : List Event} {flatHost : Host Flat} {host : Host Session}

theorem Session.Simulates.perform {α : Type} (h : Session.Simulates before flatHost host)
    (frame : Frame) (action : Action α) (s : Session) :
    Flat.perform flatHost frame action (s.flat before) =
      (action.perform host frame s).map id (Session.flat before) := by
  induction action generalizing s with
  | done result => rfl
  | revert data => rfl
  | load key next ih => exact ih _ s
  | store key value next ih =>
      simp only [Flat.perform, Action.perform]
      split
      · rfl
      · rw [← Session.flat_setStorage]
        exact ih _
  | balance account next ih => exact ih _ s
  | emit name data next ih =>
      simp only [Flat.perform, Action.perform]
      split
      · rfl
      · rw [← Session.flat_emit]
        exact ih _
  | call message next ih =>
      simp only [Flat.perform, Action.perform, h message s]
      exact ih _ _
  | note line next ih => exact ih { s with journal := s.journal ++ [line] }

theorem Session.Simulates.hold {α : Type} (h : Session.Simulates before flatHost host)
    (d : Dialogue α) (s : Session) :
    d.run flatHost (s.flat before) = (d.hold host s).map id (Session.flat before) := by
  induction d generalizing s with
  | done result => rfl
  | ask message next ih =>
      simp only [Dialogue.run, Dialogue.hold, h message s]
      exact ih _ _
  | note line next ih => exact ih { s with journal := s.journal ++ [line] }

/-! ## Nested calls -/

theorem Session.flat_opened (before : List Event) (s : Session) :
    Session.flat (before ++ s.events) s.opened = s.flat before := by
  simp [Session.flat, Session.opened]

theorem Session.flat_adopt (before : List Event) (s inner : Session) :
    Session.flat before (s.adopt inner) = inner.flat (before ++ s.events) := by
  simp [Session.flat, Session.adopt]

theorem Session.flat_abandon (before : List Event) (s inner : Session) :
    Session.flat before (s.abandon inner) = s.flat before := rfl

variable [Deployable κ]

/-- A call on overlays is a call on the flat map. -/
theorem Session.simulates_dispatch (contracts : Contracts κ) (room : Nat) (parent : Frame)
    (before : List Event) :
    Session.Simulates before (Flat.dispatch contracts room parent) (dispatch contracts room parent) := by
  induction room generalizing parent before with
  | zero => exact fun _ _ => rfl
  | succ room ih =>
      intro message s
      -- The call begins without events of its own, so those of its caller lie below it.
      simp only [Flat.dispatch, dispatch]
      rw [← Session.flat_opened, Session.flat_payFor]
      rcases parent.payFor message s.opened.store with ⟨data | _, store⟩
      · simp only [Prod.map, id, Session.flat_opened]
      · simp only [Prod.map, id]
        cases contracts.get? (parent.child message.kind message.target message.value).code with
        | none => simp only [Session.flat_adopt]
        | some contract =>
            simp only [(ih _ (before ++ s.events)).perform]
            rcases Action.perform (dispatch contracts room _) _ _ _ with ⟨data | data, inner⟩
            · simp only [Prod.map, id, Session.flat_opened, Session.flat_abandon]
            · simp only [Prod.map, id, Session.flat_adopt]

/-- A call that fails leaves notes at most; one that succeeds hands down what it did. -/
theorem dispatch_cases (contracts : Contracts κ) (room : Nat) (parent : Frame) (message : Message)
    (s : Session) :
    (∃ data journal, dispatch contracts room parent message s = (.failure data, { s with journal })) ∨
      ∃ data inner, dispatch contracts room parent message s = (.success data, s.adopt inner) := by
  cases room with
  | zero => exact .inl ⟨_, s.journal, rfl⟩
  | succ room =>
      simp only [dispatch]
      rcases parent.payFor message s.opened.store with ⟨data | _, store⟩
      · exact .inl ⟨_, s.journal, rfl⟩
      · simp only
        cases contracts.get? (parent.child message.kind message.target message.value).code with
        | none => exact .inr ⟨_, _, rfl⟩
        | some contract =>
            simp only
            rcases Action.perform (dispatch contracts room _) _ _ _ with ⟨data | data, inner⟩
            · exact .inl ⟨_, inner.journal, rfl⟩
            · exact .inr ⟨_, _, rfl⟩

/-! ## Worlds -/

namespace World

theorem flat_payForRun (before : List Event) (s : Session) (caller executor : Address)
    (value : Word) :
    (s.flat before).payForRun caller executor value =
      (payForRun s.store caller executor value).map fun store =>
        Session.flat before { s with store } := by
  unfold Flat.payForRun payForRun
  split
  · rfl
  · rw [Session.flat_transfer]
    rcases s.store.transfer caller executor value with ⟨_ | _, store⟩ <;> rfl

/-- A run from outside is a run on the flat map. -/
theorem flat_execute (w : World κ) (caller executor : Address) (records state : List Bytes)
    (value : Word) :
    Flat.execute w.contracts caller executor records state value w.flat =
      (w.execute caller executor records state value).map id World.flat := by
  have hopened : w.session.opened.flat w.events = w.flat := Session.flat_opened [] w.session
  simp only [Flat.execute, World.execute]
  rw [← hopened, flat_payForRun]
  cases payForRun w.session.opened.store caller executor value with
  | error e => simp only [Except.map, Prod.map, id, hopened]
  | ok store =>
      have hsim := Session.simulates_dispatch w.contracts maxDepth (.root caller executor value) w.events
      simp only [Except.map, hsim.hold, dispatchFrom, Nat.sub_zero]
      rcases Dialogue.hold _ (CallScript.execute records state) _ with ⟨e | values, inner⟩
      · simp only [Prod.map, id, hopened, flat_resume]
        rfl
      · simp only [Prod.map, id, flat_resume]
        exact congrArg (Prod.mk _) (Session.flat_adopt [] w.session inner).symm

theorem call_cases (w : World κ) (caller : Address) (message : Message) :
    (∃ data journal, w.call caller message = (.failure data, { w with journal })) ∨
      ∃ data s, w.call caller message = (.success data, w.resume s) ∧ w.events <+: s.events := by
  unfold World.call dispatchFrom
  rcases dispatch_cases w.contracts maxDepth (.root caller caller .zero) message w.session with
    ⟨data, journal, h⟩ | ⟨data, inner, h⟩
  · exact .inl ⟨data, journal, by rw [Nat.sub_zero, h]; rfl⟩
  · exact .inr ⟨data, _, by rw [Nat.sub_zero, h], List.prefix_append ..⟩

theorem execute_cases (w : World κ) (caller executor : Address) (records state : List Bytes)
    (value : Word) :
    (∃ e journal, w.execute caller executor records state value = (.error e, { w with journal })) ∨
      ∃ values s, w.execute caller executor records state value = (.ok values, w.resume s) ∧
        w.events <+: s.events := by
  simp only [World.execute]
  cases payForRun w.session.opened.store caller executor value with
  | error e => exact .inl ⟨e, w.journal, rfl⟩
  | ok store =>
      simp only
      rcases Dialogue.hold _ (CallScript.execute records state) _ with ⟨e | values, inner⟩
      · exact .inl ⟨e, inner.journal ++ [.reverted executor e], rfl⟩
      · exact .inr ⟨values, _, rfl, List.prefix_append ..⟩

end World

/-- Calls between contracts agree with calls on one flat map, at every depth, in their outcome, in all
bindings and in all events. A call or a run of a world that fails leaves bindings and events exactly
as they were; one that succeeds only adds events. -/
theorem dispatch_agrees_with_flat :
    (∀ (contracts : Contracts) (room : Nat) (parent : Frame) (message : Message) (s : Session),
      let result := dispatch contracts room parent message s
      let reference := Flat.dispatch contracts room parent message ⟨s.store.get?, s.events⟩
      result.1 = reference.1 ∧ result.2.store.get? = reference.2.bindings ∧
        result.2.events = reference.2.events) ∧
    (∀ (w : World) (caller : Address) (message : Message),
      let result := w.call caller message
      (∀ data, result.1 = .failure data → result.2.store = w.store ∧ result.2.events = w.events) ∧
        ∀ data, result.1 = .success data → w.events <+: result.2.events) ∧
    ∀ (w : World) (caller executor : Address) (records state : List Bytes) (value : Word),
      let result := w.execute caller executor records state value
      (∀ e, result.1 = .error e → result.2.store = w.store ∧ result.2.events = w.events) ∧
        ∀ values, result.1 = .ok values → w.events <+: result.2.events := by
  refine ⟨fun contracts room parent message s => ?_, fun w caller message => ?_,
    fun w caller executor records state value => ?_⟩
  · have hflat := Session.simulates_dispatch contracts room parent [] message s
    simp only [Session.flat, List.nil_append] at hflat
    rw [hflat]
    exact ⟨rfl, rfl, rfl⟩
  · rcases World.call_cases w caller message with ⟨data, journal, h⟩ | ⟨data, s, h, hevents⟩
    · simp [h]
    · simpa [h, World.resume] using hevents
  · rcases World.execute_cases w caller executor records state value with
      ⟨e, journal, h⟩ | ⟨values, s, h, hevents⟩
    · simp [h]
    · simpa [h, World.resume] using hevents

end CallScript
