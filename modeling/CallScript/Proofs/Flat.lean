import CallScript.World
import Mathlib.Logic.Function.Basic

/-!
# Calls on one flat map

A second way to make calls, without overlays. There is one map from keys to values and one list of
events, and everything that code does is done to them at once. A call that fails puts back the map and
the events as they were when it began.
-/

namespace CallScript

/-- All bindings and all events so far. -/
@[ext]
structure Flat where
  bindings : Word → Option Bytes
  events : List Event

namespace Flat

/-! ## Words, balances and events -/

/-- The word bound to a key; zero if there is none, or if the value has not 32 bytes. -/
def word (s : Flat) (key : Word) : Word :=
  ((s.bindings key).bind Word.ofBytes?).getD .zero

/-- Binds a key, or removes it. -/
def write (s : Flat) (key : Word) (value? : Option Bytes) : Flat :=
  { s with bindings := Function.update s.bindings key value? }

def storage (s : Flat) (account : Address) (key : Word) : Word :=
  s.word (Store.storageKey account key)

/-- Writes a word of an account's storage; zero is kept by removing the key. -/
def setStorage (s : Flat) (account : Address) (key value : Word) : Flat :=
  s.write (Store.storageKey account key) (if value.isZero then none else some value.bytes)

def balance (s : Flat) (account : Address) : Word :=
  s.word (Store.balanceKey account)

def setBalance (s : Flat) (account : Address) (amount : Word) : Flat :=
  s.write (Store.balanceKey account) (some amount.bytes)

/-- Moves an amount between accounts. If the receiver cannot be credited, the debit is left behind. -/
def transfer (s : Flat) (sender receiver : Address) (amount : Word) : Except RevertData Unit × Flat :=
  match (s.balance sender).sub? amount with
  | none => (.error (.reason "insufficient balance"), s)
  | some remaining =>
    let s := s.setBalance sender remaining
    match (s.balance receiver).add? amount with
    | none => (.error (.reason "balance overflow"), s)
    | some credited => (.ok (), s.setBalance receiver credited)

def emit (s : Flat) (event : Event) : Flat :=
  { s with events := s.events ++ [event] }

/-! ## Code and calls -/

/-- Performs an action in a frame, where `host` makes its calls. -/
def perform {α : Type} (host : Host Flat) (frame : Frame) :
    Action α → Flat → Except RevertData α × Flat
  | .done result, s => (.ok result, s)
  | .revert data, s => (.error data, s)
  | .load key next, s => perform host frame (next (s.storage frame.address key)) s
  | .store key value next, s =>
    if frame.isStatic then (.error (.reason "storage write in static context"), s)
    else perform host frame next (s.setStorage frame.address key value)
  | .balance account next, s => perform host frame (next (s.balance account)) s
  | .emit name data next, s =>
    if frame.isStatic then (.error (.reason "event in static context"), s)
    else perform host frame next (s.emit ⟨frame.address, name, data⟩)
  | .call message next, s =>
    let (outcome, s) := host message s
    perform host frame (next outcome) s
  | .note _ next, s => perform host frame next s

/-- Moves the value of a call from the frame that makes it. -/
def payFor (parent : Frame) (message : Message) (s : Flat) : Except RevertData Unit × Flat :=
  if message.kind = .value ∧ ¬ message.value.isZero then
    if parent.isStatic then (.error (.reason "value transfer in static context"), s)
    else s.transfer parent.address message.target message.value
  else (.ok (), s)

variable {κ : Type} [Deployable κ]

/-- Makes a call from a frame, when `room` more nested calls are allowed. Of a call that fails nothing
is left: the result is the state in which it was made. -/
def dispatch (contracts : Contracts κ) : (room : Nat) → (parent : Frame) → Host Flat
  | 0, _, _, s => (.failure (.reason "call depth exceeded"), s)
  | room + 1, parent, message, before =>
    let frame := parent.child message.kind message.target message.value
    match payFor parent message before with
    | (.error data, _) => (.failure data, before)
    | (.ok (), s) =>
      match contracts.get? frame.code with
      | none => (.success [], s)
      | some contract =>
        let code := Deployable.code contract (maxDepth - room)
        match perform (dispatch contracts room frame) frame (code.route frame message.input) s with
        | (.ok data, s) => (.success data, s)
        | (.error data, _) => (.failure data, before)

/-! ## Runs from outside -/

/-- Moves the value of a run from its caller to the account it runs as. -/
def payForRun (s : Flat) (caller executor : Address) (value : Word) : Except RunError Flat :=
  if value.isZero then .ok s
  else
    match s.transfer caller executor value with
    | (.ok (), s) => .ok s
    | (.error _, _) =>
      .error (.insufficientBalance (World.reported value) (World.reported (s.balance caller)))

/-- Runs records over a state as account `executor` in the name of `caller`. -/
def execute (contracts : Contracts κ) (caller executor : Address) (records state : List Bytes)
    (value : Word) (before : Flat) : Except RunError (List Bytes) × Flat :=
  match before.payForRun caller executor value with
  | .error e => (.error e, before)
  | .ok s =>
    let frame := Frame.root caller executor value
    match (CallScript.execute records state).run (dispatch contracts maxDepth frame) s with
    | (.ok values, s) => (.ok values, s)
    | (.error e, _) => (.error e, before)

end Flat

end CallScript
