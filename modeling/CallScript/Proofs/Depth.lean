import CallScript.Proofs.Effects
import CallScript.Proofs.Flat
import CallScript.Proofs.Run.Stepping

/-!
# Calls with more room

No contract of the library hides that one of its calls has failed: the failure ends the contract as well,
with the same payload. Nor does it ask how deep it is called. Where all contracts are like that, a call that
comes to the end of its room takes all its callers with it, and any other call does the same when there is
more room.
-/

namespace CallScript

/-- Two hosts that answer alike, and leave the same behind, unless the first one fails with `data`. -/
def AgreeUnless {σ : Type} (data : RevertData) (host host' : Host σ) : Prop :=
  ∀ message s, (host message s).1 = .failure data ∨ host message s = host' message s

/-! ## Runs -/

namespace Run

variable {σ : Type} {data : RevertData} {host host' : Host σ}

end Run

/-! ## Code -/

namespace Flat

variable {α β : Type} {host : Host Flat} {frame : Frame} {s : Flat}

theorem perform_bind (host : Host Flat) (frame : Frame) (action : Action α) (k : α → Action β)
    (s : Flat) :
    perform host frame (action >>= k) s =
      match perform host frame action s with
      | (.ok result, s) => perform host frame (k result) s
      | (.error data, s) => (.error data, s) := by
  change perform host frame (action.bind k) s = _
  induction action generalizing s with
  | done result => rfl
  | revert data => rfl
  | load key next ih => exact ih _ s
  | store key value next ih =>
      simp only [Action.bind, perform]
      split
      · rfl
      · exact ih _
  | balance account next ih => exact ih _ s
  | emit name data next ih =>
      simp only [Action.bind, perform]
      split
      · rfl
      · exact ih _
  | call message next ih => exact ih _ _
  | note line next ih => exact ih s

theorem perform_ofDialogue (host : Host Flat) (frame : Frame) (d : Dialogue α) (s : Flat) :
    perform host frame (.ofDialogue d) s = (.ok (d.run host s).1, (d.run host s).2) := by
  induction d generalizing s with
  | done result => rfl
  | ask message next ih => exact ih _ _
  | note line next ih => exact ih s

end Flat

/-- With two hosts that agree unless the first one fails with `data`, the action fails with `data` under the
first or does the same under both: such a failure of a call becomes its own, or makes no difference to it. -/
def Action.Relays {α : Type} (data : RevertData) (action : Action α) : Prop :=
  ∀ host host' : Host Flat, AgreeUnless data host host' → ∀ frame s,
    (Flat.perform host frame action s).1 = .error data ∨
      Flat.perform host frame action s = Flat.perform host' frame action s

namespace Action

variable {α β : Type}

/-- An action that begins by reading an argument. -/
theorem Relays.read {data : RevertData} {x : Except RevertData α} {k : α → Action β}
    (hk : ∀ a, (k a).Relays data) : ((liftM x : Action α) >>= k).Relays data := by
  cases x with
  | ok a => exact hk a
  | error e => exact fun _ _ _ _ _ => .inr rfl

end Action

/-! ## Contracts -/

/-- The code hands on a failure of its calls with `data`, whatever it is asked. -/
def Code.Relays (data : RevertData) (code : Code) : Prop :=
  ∀ frame input, (code.route frame input).Relays data

/-- How a call fails that is nested too deep. -/
def depthExceeded : RevertData := .reason "call depth exceeded"

namespace Deployable

variable {κ : Type} [Deployable κ]

end Deployable

/-! ## Nested calls -/

namespace Flat

variable {κ : Type} [Deployable κ]

/-- Which code runs in a frame makes no difference to the calls made from it. -/
theorem dispatch_code (contracts : Contracts κ) (room : Nat) (parent : Frame) (code : Address) :
    dispatch contracts room { parent with code } = dispatch contracts room parent := by
  cases room with
  | zero => rfl
  | succ room =>
      funext message before
      have hchild : { parent with code }.child message.kind message.target message.value =
          parent.child message.kind message.target message.value := by
        cases message.kind <;> rfl
      simp only [dispatch, hchild]
      rfl

end Flat

end CallScript
