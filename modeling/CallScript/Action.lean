import CallScript.Frame
import CallScript.Journal
import CallScript.Ledger
import CallScript.Run.Dialogue

/-!
# Actions

The code of a contract is an action: a finite tree of the things it does to its surroundings. An
action is performed in a frame on a session, which holds what has been written so far.
-/

namespace CallScript

/-- Something a contract made known. -/
structure Event where
  /-- The account in whose name it was made known. -/
  address : Address
  name : String
  data : Bytes
  deriving DecidableEq

/-- What code works on: the store, the events so far, and the journal. -/
structure Session where
  store : Store
  events : List Event := []
  journal : List Note := []

/-- Holds a dialogue with a host that works on a session; the notes go into the journal. -/
def Dialogue.hold {α : Type} (host : Host Session) : Dialogue α → Session → α × Session
  | .done result, s => (result, s)
  | .ask message next, s =>
    let (outcome, s) := host message s
    (next outcome).hold host s
  | .note line next, s => next.hold host { s with journal := s.journal ++ [line] }

/-- What code does, up to its result or its failure. -/
inductive Action (α : Type) where
  | done (result : α)
  | revert (data : RevertData)
  /-- Reads a word of the own storage. -/
  | load (key : Word) (next : Word → Action α)
  /-- Writes a word of the own storage. -/
  | store (key value : Word) (next : Action α)
  /-- Reads the balance of an account. -/
  | balance (account : Address) (next : Word → Action α)
  | emit (name : String) (data : Bytes) (next : Action α)
  | call (message : Message) (next : Outcome → Action α)
  | note (line : Note) (next : Action α)

namespace Action

variable {α β : Type}

/-- Goes on after the result. -/
def bind : Action α → (α → Action β) → Action β
  | .done result, k => k result
  | .revert data, _ => .revert data
  | .load key next, k => .load key fun w => (next w).bind k
  | .store key value next, k => .store key value (next.bind k)
  | .balance account next, k => .balance account fun w => (next w).bind k
  | .emit name data next, k => .emit name data (next.bind k)
  | .call message next, k => .call message fun outcome => (next outcome).bind k
  | .note line next, k => .note line (next.bind k)

instance : Monad Action where
  pure := .done
  bind := bind

/-- The result of a computation, or its failure. -/
def ofExcept : Except RevertData α → Action α
  | .ok result => .done result
  | .error data => .revert data

instance : MonadLift (Except RevertData) Action := ⟨ofExcept⟩

/-- The result, or failure with a reason if there is none. -/
def orRevert (result? : Option α) (reason : String) : Action α :=
  match result? with
  | some result => .done result
  | none => .revert (.reason reason)

/-- Holds a dialogue with the surroundings of the action. -/
def ofDialogue : Dialogue α → Action α
  | .done result => .done result
  | .ask message next => .call message fun outcome => ofDialogue (next outcome)
  | .note line next => .note line (ofDialogue next)

/-- Performs an action in a frame, where `host` makes its calls. What was written before a failure
stays written. -/
def perform (host : Host Session) (frame : Frame) :
    Action α → Session → Except RevertData α × Session
  | .done result, s => (.ok result, s)
  | .revert data, s => (.error data, s)
  | .load key next, s => (next (s.store.storage frame.address key)).perform host frame s
  | .store key value next, s =>
    if frame.isStatic then (.error (.reason "storage write in static context"), s)
    else next.perform host frame { s with store := s.store.setStorage frame.address key value }
  | .balance account next, s => (next (s.store.balance account)).perform host frame s
  | .emit name data next, s =>
    if frame.isStatic then (.error (.reason "event in static context"), s)
    else next.perform host frame { s with events := s.events ++ [⟨frame.address, name, data⟩] }
  | .call message next, s =>
    let (outcome, s) := host message s
    (next outcome).perform host frame s
  | .note line next, s => next.perform host frame { s with journal := s.journal ++ [line] }

/-- A dialogue as part of an action is held with the host of the action, and never fails. -/
theorem perform_ofDialogue (host : Host Session) (frame : Frame) (d : Dialogue α) (s : Session) :
    (ofDialogue d).perform host frame s = (.ok (d.hold host s).1, (d.hold host s).2) := by
  induction d generalizing s with
  | done result => rfl
  | ask message next ih => simp only [ofDialogue, perform, Dialogue.hold, ih]
  | note line next ih => simp only [ofDialogue, perform, Dialogue.hold, ih]

end Action

end CallScript
