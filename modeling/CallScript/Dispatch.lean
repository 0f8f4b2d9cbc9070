import CallScript.Contract.Library

/-!
# Calls between contracts

A call runs the code of its target in a frame of its own, on an overlay of the caller's store and with
its own list of events. If it succeeds, both are handed to the caller; if it fails, both are dropped.
-/

namespace CallScript

/-- The contract at each address, one of the library unless others are named. -/
abbrev Contracts (κ : Type := Contract) := SortedMap Address κ

/-- The deepest call that is made; calls from outside have depth 1. -/
def maxDepth : Nat := 64

namespace Session

/-- The session of a call that is about to run. -/
def opened (s : Session) : Session :=
  { s with store := s.store.opened, events := [] }

/-- Takes over what a call did. -/
def adopt (s inner : Session) : Session :=
  { store := inner.store.commit, events := s.events ++ inner.events, journal := inner.journal }

/-- Drops what a call did, all but its notes. -/
def abandon (s inner : Session) : Session :=
  { s with journal := inner.journal }

end Session

/-- Moves the value of a call from the frame that makes it. -/
def Frame.payFor (parent : Frame) (message : Message) (store : Store) :
    Except RevertData Unit × Store :=
  if message.kind = .value ∧ ¬ message.value.isZero then
    if parent.isStatic then (.error (.reason "value transfer in static context"), store)
    else store.transfer parent.address message.target message.value
  else (.ok (), store)

variable {κ : Type} [Deployable κ]

/-- Makes a call from a frame, when `room` more nested calls are allowed. An account without code
accepts every call and returns nothing. -/
def dispatch (contracts : Contracts κ) : (room : Nat) → (parent : Frame) → Host Session
  | 0, _, _, s => (.failure (.reason "call depth exceeded"), s)
  | room + 1, parent, message, s =>
    let frame := parent.child message.kind message.target message.value
    let inner := s.opened
    match parent.payFor message inner.store with
    | (.error data, _) => (.failure data, s)
    | (.ok (), store) =>
      let inner := { inner with store }
      match contracts.get? frame.code with
      | none => (.success [], s.adopt inner)
      | some contract =>
        let code := Deployable.code contract (maxDepth - room)
        match (code.route frame message.input).perform (dispatch contracts room frame) frame inner with
        | (.ok data, inner) => (.success data, s.adopt inner)
        | (.error data, inner) => (.failure data, s.abandon inner)

/-- Makes a call from a frame of the given depth. -/
def dispatchFrom (contracts : Contracts κ) (depth : Nat) (parent : Frame) : Host Session :=
  dispatch contracts (maxDepth - depth) parent

end CallScript
