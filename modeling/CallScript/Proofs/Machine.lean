import CallScript.World
import Mathlib.Logic.Relation

/-!
# Calls as a machine

Calls once more, one step at a time. The machine keeps a stack of the code that waits for a call it has
made, every entry with the depth of its own call, and enters no code beyond the deepest call that is made.
Nothing in it says that it ever stops.
-/

namespace CallScript

/-! ## Actions -/

/-- What an action does next: it ends, it goes on by itself, or it makes a call. -/
inductive Action.Progress (α : Type) where
  | ended (result : Except RevertData α) (s : Session)
  | goes (rest : Action α) (s : Session)
  | calls (message : Message) (next : Outcome → Action α) (s : Session)

namespace Action

variable {α : Type}

/-- One step of an action in a frame. -/
def progress (frame : Frame) : Action α → Session → Progress α
  | .done result, s => .ended (.ok result) s
  | .revert data, s => .ended (.error data) s
  | .load key next, s => .goes (next (s.store.storage frame.address key)) s
  | .store key value next, s =>
    if frame.isStatic then .ended (.error (.reason "storage write in static context")) s
    else .goes next { s with store := s.store.setStorage frame.address key value }
  | .balance account next, s => .goes (next (s.store.balance account)) s
  | .emit name data next, s =>
    if frame.isStatic then .ended (.error (.reason "event in static context")) s
    else .goes next { s with events := s.events ++ [⟨frame.address, name, data⟩] }
  | .call message next, s => .calls message next s
  | .note line next, s => .goes next { s with journal := s.journal ++ [line] }

theorem perform_eq_progress (host : Host Session) (frame : Frame) (action : Action α) (s : Session) :
    action.perform host frame s =
      match action.progress frame s with
      | .ended result s => (result, s)
      | .goes rest s => rest.perform host frame s
      | .calls message next s =>
        (next (host message s).1).perform host frame (host message s).2 := by
  cases action with
  | store key value next =>
      simp only [perform, progress]
      split <;> rfl
  | emit name data next =>
      simp only [perform, progress]
      split <;> rfl
  | _ => rfl

/-- Every action comes to its end: what holds of an action as soon as it holds of all that can be left of
it after one step holds of all actions. -/
theorem progress_induction {P : Action α → Prop}
    (h : ∀ action, (∀ frame s rest s', action.progress frame s = .goes rest s' → P rest) →
      (∀ frame s message next s', action.progress frame s = .calls message next s' →
        ∀ outcome, P (next outcome)) → P action)
    (action : Action α) : P action := by
  induction action with
  | done result => exact h _ (fun _ _ _ _ hgoes => by cases hgoes) fun _ _ _ _ _ hcalls => by cases hcalls
  | revert data => exact h _ (fun _ _ _ _ hgoes => by cases hgoes) fun _ _ _ _ _ hcalls => by cases hcalls
  | load key next ih =>
      refine h _ (fun frame s rest s' hgoes => ?_) fun _ _ _ _ _ hcalls => by cases hcalls
      cases hgoes
      exact ih _
  | store key value next ih =>
      refine h _ (fun frame s rest s' hgoes => ?_) fun frame s message next s' hcalls => ?_
      · simp only [progress] at hgoes
        split at hgoes
        · cases hgoes
        · cases hgoes
          exact ih
      · simp only [progress] at hcalls
        split at hcalls <;> cases hcalls
  | balance account next ih =>
      refine h _ (fun frame s rest s' hgoes => ?_) fun _ _ _ _ _ hcalls => by cases hcalls
      cases hgoes
      exact ih _
  | emit name data next ih =>
      refine h _ (fun frame s rest s' hgoes => ?_) fun frame s message next s' hcalls => ?_
      · simp only [progress] at hgoes
        split at hgoes
        · cases hgoes
        · cases hgoes
          exact ih
      · simp only [progress] at hcalls
        split at hcalls <;> cases hcalls
  | call message next ih =>
      refine h _ (fun _ _ _ _ hgoes => by cases hgoes) fun frame s message next s' hcalls => ?_
      cases hcalls
      exact ih
  | note line next ih =>
      refine h _ (fun frame s rest s' hgoes => ?_) fun _ _ _ _ _ hcalls => by cases hcalls
      cases hgoes
      exact ih

end Action

/-! ## Entering and leaving code -/

/-- Code at work: the depth of its call, its frame, and the session in which it was called. -/
structure Activation where
  depth : Nat
  frame : Frame
  entry : Session

/-- Code that waits for a call it has made. -/
structure Suspended extends Activation where
  next : Outcome → Action Bytes

/-- How a call begins: it is answered at once, or code is entered. -/
inductive Entry where
  | answered (outcome : Outcome) (s : Session)
  | entered (code : Activation) (action : Action Bytes) (s : Session)

/-- Begins a call of the given depth. -/
def Frame.enter (contracts : Contracts) (parent : Frame) (depth : Nat) (message : Message) (s : Session) :
    Entry :=
  if depth > maxDepth then .answered (.failure (.reason "call depth exceeded")) s
  else
    let frame := parent.child message.kind message.target message.value
    match parent.payFor message s.opened.store with
    | (.error data, _) => .answered (.failure data) s
    | (.ok (), store) =>
      let inner := { s.opened with store }
      match contracts.get? frame.code with
      | none => .answered (.success []) (s.adopt inner)
      | some contract => .entered ⟨depth, frame, s⟩ (contract.code.route frame message.input) inner

/-- What the caller finds when code has ended. -/
def Activation.leave (code : Activation) : Except RevertData Bytes × Session → Outcome × Session
  | (.ok data, s) => (.success data, code.entry.adopt s)
  | (.error data, s) => (.failure data, code.entry.abandon s)

theorem Frame.depth_of_enter {contracts : Contracts} {parent : Frame} {depth : Nat} {message : Message}
    {s s' : Session} {code : Activation} {action : Action Bytes}
    (h : parent.enter contracts depth message s = .entered code action s') :
    code.depth = depth ∧ depth ≤ maxDepth := by
  unfold Frame.enter at h
  split at h
  · cases h
  · next hdepth =>
    split at h
    · cases h
    · simp only at h
      split at h
      · cases h
      · cases h
        exact ⟨rfl, Nat.not_lt.mp hdepth⟩

/-- A call from a frame of some depth is one of the next depth, and so are the calls of the code it runs. -/
theorem dispatchFrom_eq_enter (contracts : Contracts) (depth : Nat) (parent : Frame) (message : Message)
    (s : Session) :
    dispatchFrom contracts depth parent message s =
      match parent.enter contracts (depth + 1) message s with
      | .answered outcome s => (outcome, s)
      | .entered code action s =>
        code.leave (action.perform (dispatchFrom contracts (depth + 1) code.frame) code.frame s) := by
  by_cases hdepth : depth + 1 > maxDepth
  · have hroom : maxDepth - depth = 0 := by omega
    simp only [dispatchFrom, hroom, dispatch, Frame.enter, hdepth, ↓reduceIte]
  · have hroom : maxDepth - depth = maxDepth - (depth + 1) + 1 := by omega
    simp only [dispatchFrom, hroom, dispatch, Frame.enter, hdepth, ↓reduceIte]
    generalize parent.child message.kind message.target message.value = frame
    rcases parent.payFor message s.opened.store with ⟨data | _, store⟩
    · rfl
    · simp only
      cases contracts.get? frame.code with
      | none => rfl
      | some contract =>
          simp only
          generalize Action.perform _ frame _ _ = ended
          rcases ended with ⟨data | data, inner⟩ <;> rfl

/-! ## The machine -/

/-- Where calls stand: an action that makes them from outside is at work, or code is at work below it, or
everything is over. -/
inductive Machine (α : Type) where
  | outside (action : Action α) (s : Session)
  | inside (code : Activation) (action : Action Bytes) (s : Session) (waiting : List Suspended)
      (next : Outcome → Action α)
  | halted (result : Except RevertData α) (s : Session)

namespace Machine

variable {α : Type}

/-- Hands an outcome to the innermost of those who wait. -/
def resume (next : Outcome → Action α) : List Suspended → Outcome × Session → Machine α
  | [], (outcome, s) => .outside (next outcome) s
  | caller :: waiting, (outcome, s) => .inside caller.toActivation (caller.next outcome) s waiting next

/-- The state after one step, until everything is over. Calls from outside come from the frame `root`. -/
def next? (contracts : Contracts) (root : Frame) : Machine α → Option (Machine α)
  | .outside action s =>
    match action.progress root s with
    | .ended result s => some (.halted result s)
    | .goes rest s => some (.outside rest s)
    | .calls message next s =>
      match root.enter contracts 1 message s with
      | .answered outcome s => some (resume next [] (outcome, s))
      | .entered code action s => some (.inside code action s [] next)
  | .inside code action s waiting next =>
    match action.progress code.frame s with
    | .ended result s => some (resume next waiting (code.leave (result, s)))
    | .goes rest s => some (.inside code rest s waiting next)
    | .calls message k s =>
      match code.frame.enter contracts (code.depth + 1) message s with
      | .answered outcome s => some (resume next (⟨code, k⟩ :: waiting) (outcome, s))
      | .entered inner action s => some (.inside inner action s (⟨code, k⟩ :: waiting) next)
  | .halted .. => none

/-- One state comes after the other in finitely many steps. -/
def Reaches (contracts : Contracts) (root : Frame) : Machine α → Machine α → Prop :=
  Relation.ReflTransGen fun m m' => m.next? contracts root = some m'

variable {contracts : Contracts} {root : Frame}

theorem Reaches.step {m m' m'' : Machine α} (h : m.next? contracts root = some m')
    (h' : Reaches contracts root m' m'') : Reaches contracts root m m'' :=
  .head h h'

/-! ## Results -/

/-- Code that is entered comes to its end, and its caller goes on with what the nested calls give. -/
theorem reaches_resume (next : Outcome → Action α) (code : Activation) (action : Action Bytes) (s : Session)
    (waiting : List Suspended) :
    Reaches contracts root (.inside code action s waiting next)
      (resume next waiting
        (code.leave (action.perform (dispatchFrom contracts code.depth code.frame) code.frame s))) := by
  -- Code that is called from here has less room below the deepest call, whatever it is sent to run.
  induction hroom : maxDepth - code.depth using Nat.strongRecOn
    generalizing code action s waiting with
  | ind room ihroom =>
  induction action using Action.progress_induction generalizing s with
  | h action ihgoes ihcalls =>
  rw [Action.perform_eq_progress]
  rcases hprogress : action.progress code.frame s with ⟨result, s₁⟩ | ⟨rest, s₁⟩ | ⟨message, k, s₁⟩
  · exact .step (by rw [next?, hprogress]) .refl
  · exact .step (by rw [next?, hprogress]) (ihgoes _ _ _ _ hprogress s₁)
  · have hrest (outcome : Outcome) (s : Session) := ihcalls _ _ _ _ _ hprogress outcome s
    simp only [dispatchFrom_eq_enter]
    rcases henter : code.frame.enter contracts (code.depth + 1) message s₁ with
      ⟨outcome, s₂⟩ | ⟨inner, action', s₂⟩
    · exact .step (by rw [next?, hprogress]; simp only [henter]; rfl) (hrest outcome s₂)
    · obtain ⟨hdepth, hlimit⟩ := Frame.depth_of_enter henter
      have hbelow := ihroom (maxDepth - inner.depth) (by omega) inner action' s₂ (⟨code, k⟩ :: waiting) rfl
      rw [hdepth] at hbelow
      refine .step (by rw [next?, hprogress]; simp only [henter]) (hbelow.trans ?_)
      exact hrest _ _

/-- From outside, everything comes to its end, with the result of the nested calls. -/
theorem reaches_halted (action : Action α) (s : Session) :
    Reaches contracts root (.outside action s)
      (.halted (action.perform (dispatchFrom contracts 0 root) root s).1
        (action.perform (dispatchFrom contracts 0 root) root s).2) := by
  induction action using Action.progress_induction generalizing s with
  | h action ihgoes ihcalls =>
  rw [Action.perform_eq_progress]
  rcases hprogress : action.progress root s with ⟨result, s₁⟩ | ⟨rest, s₁⟩ | ⟨message, k, s₁⟩
  · exact .step (by rw [next?, hprogress]) .refl
  · exact .step (by rw [next?, hprogress]) (ihgoes _ _ _ _ hprogress s₁)
  · have hrest (outcome : Outcome) (s : Session) := ihcalls _ _ _ _ _ hprogress outcome s
    simp only [dispatchFrom_eq_enter]
    rcases henter : root.enter contracts 1 message s₁ with ⟨outcome, s₂⟩ | ⟨inner, action', s₂⟩
    · exact .step (by rw [next?, hprogress]; simp only [henter]; rfl) (hrest outcome s₂)
    · have hbelow : Reaches contracts root (.inside inner action' s₂ [] k) _ := reaches_resume ..
      rw [(Frame.depth_of_enter henter).1] at hbelow
      refine .step (by rw [next?, hprogress]; simp only [henter]) (hbelow.trans ?_)
      exact hrest _ _

end Machine

end CallScript
