import CallScript.Contract.Library
import Mathlib.Data.List.Basic

/-!
# What code can do

Apart from reading and reporting, code can write to storage and make calls. The token is the only contract
of the library that writes, and the executor is the only one that makes calls.
-/

namespace CallScript

/-- What code does that others can feel. -/
inductive Effect where
  /-- A write to the own storage. -/
  | write
  | call

namespace Action

variable {α β : Type} {allowed : Effect → Prop}

/-- The action has no other effects than those, whatever it reads and whatever its calls return. -/
def Within (allowed : Effect → Prop) : Action α → Prop
  | .done _ => True
  | .revert _ => True
  | .load _ next => ∀ w, (next w).Within allowed
  | .store _ _ next => allowed .write ∧ next.Within allowed
  | .balance _ next => ∀ w, (next w).Within allowed
  | .emit _ _ next => next.Within allowed
  | .call _ next => allowed .call ∧ ∀ outcome, (next outcome).Within allowed
  | .note _ next => next.Within allowed

theorem Within.bind {action : Action α} {k : α → Action β} (h : action.Within allowed)
    (hk : ∀ a, (k a).Within allowed) : (action >>= k).Within allowed := by
  change (action.bind k).Within allowed
  induction action with
  | done result => exact hk result
  | revert data => trivial
  | load key next ih => exact fun w => ih w (h w)
  | store key value next ih => exact ⟨h.1, ih h.2⟩
  | balance account next ih => exact fun w => ih w (h w)
  | emit name data next ih => exact ih h
  | call message next ih => exact ⟨h.1, fun outcome => ih outcome (h.2 outcome)⟩
  | note line next ih => exact ih h

/-- An action that begins by reading an argument. -/
theorem Within.read {x : Except RevertData α} {k : α → Action β} (hk : ∀ a, (k a).Within allowed) :
    ((liftM x : Action α) >>= k).Within allowed := by
  cases x with
  | ok a => exact hk a
  | error data => trivial

/-- An action that begins with something that may be missing. -/
theorem Within.require {x : Option α} {reason : String} {k : α → Action β}
    (hk : ∀ a, (k a).Within allowed) : (orRevert x reason >>= k).Within allowed := by
  cases x with
  | some a => exact hk a
  | none => trivial

theorem within_ofDialogue (h : allowed .call) (d : Dialogue α) : (ofDialogue d).Within allowed := by
  induction d with
  | done result => trivial
  | ask message next ih => exact ⟨h, ih⟩
  | note line next ih => exact ih

end Action

/-- What holds of all functions of a code and of its fallback holds of every call it answers. -/
theorem Code.route_of_forall {code : Code} {P : Action Bytes → Prop}
    (hfunctions : code.functions.Forall fun function => ∀ frame args, P (function.body frame args))
    (hfallback : ∀ frame data, P (code.fallback frame data)) (frame : Frame) (input : Bytes) :
    P (code.route frame input) := by
  unfold Code.route Code.functionFor?
  split
  · next function hfind =>
    exact List.forall_iff_forall_mem.mp hfunctions function (List.mem_of_find?_eq_some hfind) frame _
  · exact hfallback frame input

/-! ## Contracts -/

namespace Contract

/-- The effects that the code of a contract may have. -/
def effects : Contract → Effect → Prop
  | .token, .write => True
  | .executor, .call => True
  | _, _ => False

theorem effects_write {contract : Contract} : contract.effects .write ↔ contract = .token := by
  cases contract <;> simp [effects]

theorem effects_call {contract : Contract} : contract.effects .call ↔ contract = .executor := by
  cases contract <;> simp [effects]

section

variable {allowed : Effect → Prop}

theorem Math.within_binary (operation : Word → Word → Option Word) (frame : Frame) (args : Bytes) :
    (binary operation frame args).Within allowed :=
  .read fun _ => .read fun _ => .require fun _ => trivial

theorem StateTest.within_addSlots (frame : Frame) (args : Bytes) :
    (addSlots frame args).Within allowed := by
  refine .read fun target => .read fun a => .read fun b => .read fun state => ?_
  refine .require fun x => .require fun y => .require fun sum => ?_
  split
  · trivial
  · trivial

theorem Events.within_report (name : String) (data : Except RevertData Bytes) :
    (report name data).Within allowed :=
  .read fun _ => trivial

theorem Payable.within_fallback (frame : Frame) (data : Bytes) :
    (Payable.code.fallback frame data).Within allowed := by
  cases data with
  | nil => trivial
  | cons b rest => trivial

variable (hwrite : allowed .write)

include hwrite

theorem Token.within_credit (holder : Address) (amount : Word) : (credit holder amount).Within allowed :=
  fun _ => .require fun _ => ⟨hwrite, trivial⟩

theorem Token.within_transfer (frame : Frame) (args : Bytes) : (transfer frame args).Within allowed := by
  refine .read fun receiver => .read fun amount => fun balance => .require fun remaining => ⟨hwrite, ?_⟩
  exact .bind (within_credit hwrite receiver amount) fun _ => trivial

theorem Token.within_mint (frame : Frame) (args : Bytes) : (mint frame args).Within allowed := by
  refine .read fun receiver => .read fun amount => fun supply => .require fun raised => ⟨hwrite, ?_⟩
  exact .bind (within_credit hwrite receiver amount) fun _ => trivial

end

theorem Executor.within_run {allowed : Effect → Prop} (hcall : allowed .call) (frame : Frame)
    (args : Bytes) : (run frame args).Within allowed := by
  refine .read fun records => .read fun state => .bind (Action.within_ofDialogue hcall _) fun result => ?_
  cases result with
  | ok values => trivial
  | error e => trivial

/-- No contract has other effects than those listed for it, whatever it is asked. -/
theorem within_route (contract : Contract) (frame : Frame) (input : Bytes) :
    (contract.code.route frame input).Within contract.effects := by
  refine Code.route_of_forall ?_ ?_ frame input
  · cases contract with
    | math =>
        exact ⟨Math.within_binary _, Math.within_binary _, Math.within_binary _,
          fun _ _ => .read fun _ => .require fun _ => trivial⟩
    | strings => exact ⟨fun _ _ => .read fun _ => trivial, fun _ _ => .read fun _ => .read fun _ => trivial⟩
    | events =>
        exact ⟨fun _ _ => Events.within_report _ _, fun _ _ => Events.within_report _ _,
          fun _ _ => Events.within_report _ _, fun _ _ => Events.within_report _ _⟩
    | sender => exact fun _ _ => trivial
    | payable => exact ⟨fun _ _ => trivial, fun _ _ _ => trivial⟩
    | revert => exact fun _ _ => trivial
    | stateTest => exact StateTest.within_addSlots
    | multiReturn => exact ⟨fun _ _ => trivial, fun _ _ => Events.within_report _ _⟩
    | tupler => exact fun _ _ => .read fun _ => .read fun _ => .read fun _ => trivial
    | token =>
        exact ⟨Token.within_transfer trivial, fun _ _ => .read fun _ _ => trivial, fun _ _ _ => trivial,
          Token.within_mint trivial⟩
    | executor => exact Executor.within_run trivial
  · cases contract with
    | payable => exact Payable.within_fallback
    | _ => exact fun _ _ => trivial

end Contract

end CallScript
