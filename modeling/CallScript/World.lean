import CallScript.Dispatch

/-!
# Worlds

A world holds accounts with their contracts, storage and balances, and the events so far. Calls and
runs either take effect as a whole or not at all.
-/

namespace CallScript

/-- Accounts, and what has happened to them. The contracts are those of the library unless others are
named. -/
structure World (κ : Type := Contract) where
  store : Store := .empty
  contracts : Contracts κ := .empty
  events : List Event := []
  journal : List Note := []

namespace World

variable {κ : Type} [Deployable κ]

/-- Nothing deployed, nothing stored. -/
def empty : World := {}

instance : Inhabited World := ⟨empty⟩

/-- Puts a contract at an address, in place of any other. -/
def deploy (w : World κ) (address : Address) (contract : κ) : World κ :=
  { w with
    contracts := w.contracts.insert address contract
    journal := w.journal ++ [.deployed (Deployable.name contract) address] }

/-- A world with the whole library at its addresses. -/
def library : World :=
  Contract.library.foldl (fun w contract => w.deploy contract.address contract) empty

def balance (w : World κ) (account : Address) : Word :=
  w.store.balance account

def setBalance (w : World κ) (account : Address) (amount : Word) : World κ :=
  { w with store := w.store.setBalance account amount }

def storage (w : World κ) (account : Address) (key : Word) : Word :=
  w.store.storage account key

/-- What calls from outside work on. -/
def session (w : World κ) : Session :=
  { store := w.store, events := w.events, journal := w.journal }

/-- The world after a session. -/
def resume (w : World κ) (s : Session) : World κ :=
  { w with store := s.store, events := s.events, journal := s.journal }

/-- Makes one call in the name of an account. -/
def call (w : World κ) (caller : Address) (message : Message) : Outcome × World κ :=
  let (outcome, s) := dispatchFrom w.contracts 0 (.root caller caller .zero) message w.session
  (outcome, w.resume s)

/-- The amount as it is reported: at most what 128 bits can hold. -/
def reported (amount : Word) : Nat :=
  (amount.toNat? 128).getD 0xffffffffffffffffffffffffffffffff

/-- Moves the value of a run from its caller to the account it runs as. -/
def payForRun (store : Store) (caller executor : Address) (value : Word) : Except RunError Store :=
  if value.isZero then .ok store
  else
    match store.transfer caller executor value with
    | (.ok (), store) => .ok store
    | (.error _, _) => .error (.insufficientBalance (reported value) (reported (store.balance caller)))

/-- Runs records over a state as account `executor` in the name of `caller`. -/
def execute (w : World κ) (caller executor : Address) (records : List Bytes) (state : List Bytes)
    (value : Word) : Except RunError (List Bytes) × World κ :=
  let inner := w.session.opened
  match payForRun inner.store caller executor value with
  | .error e => (.error e, w)
  | .ok store =>
    let frame := Frame.root caller executor value
    match (CallScript.execute records state).hold (dispatchFrom w.contracts 0 frame)
      { inner with store } with
    | (.ok values, inner) =>
      let s := w.session.adopt inner
      (.ok values, w.resume
        { s with journal := s.journal ++ [.completed executor values.length inner.events.length] })
    | (.error e, inner) =>
      let s := w.session.abandon inner
      (.error e, w.resume { s with journal := s.journal ++ [.reverted executor e] })

end World

end CallScript
