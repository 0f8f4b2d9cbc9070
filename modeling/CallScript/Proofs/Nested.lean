import CallScript.Proofs.Abi.RoundTrip
import CallScript.Proofs.Atomicity
import CallScript.Proofs.Depth
import CallScript.Proofs.Run.Errors

/-!
# Runs inside a run

A script can hold another one in a slot and let the executor run it over the whole state. This does
the same as running the other script in its place: the arguments are read back as they were sent, the
executor runs them in the caller's name, and the extra level of calls is noticed only by a script that
has no room for it. That is so where no contract asks how deep it is called, or hides that a call was nested
too deep, as in the library; a contract that does either can tell the two runs apart.
-/

namespace CallScript

/-! ## The command -/

/-- What is sent to the executor. -/
def Contract.Executor.input (records : Bytes) (state : List Bytes) : Bytes :=
  (Selector.ofSignature "execute(bytes,bytes[])").bytes ++ Abi.encode [.bytes records, .bytesArray state]

namespace Command

/-- Lets the executor run the records in a slot over the whole state, and takes over the state they end
with. -/
def nested (executor : Address) (slot : UInt8) : Command :=
  make .delegate (.ofSignature "execute(bytes,bytes[])") executor [.dynamic slot, .state] .replaceState 0

variable {slot : UInt8} {slots : Slots} {content : Bytes}

theorem kind_nested (executor : Address) (slot : UInt8) : (nested executor slot).kind = .delegate := by
  change CallKind.ofFlags (CallKind.delegate.toFlags ||| 0) = .delegate
  decide

theorem output_nested (executor : Address) (slot : UInt8) :
    (nested executor slot).output = .replaceState := rfl

theorem has_nested (executor : Address) (slot : UInt8) (flag : Flag) :
    (nested executor slot).has flag = false := by
  change decide ((CallKind.delegate.toFlags ||| 0) &&& flag.bit ≠ 0) = false
  cases flag <;> decide

theorem inputFront_nested (executor : Address) (slot : UInt8) :
    (nested executor slot).inputFront = (Selector.ofSignature "execute(bytes,bytes[])").bytes := by
  have hselector : Selector.ofSignature "execute(bytes,bytes[])" ≠ Selector.fallback := by decide +kernel
  exact if_neg (by simpa [isFallback, nested, make] using hselector)

theorem args_nested (executor : Address) (h : slot.toNat < slots.size) :
    (nested executor slot).args = [.dynamic slot, .state] := by
  have hrange : slot.toNat < maxSlots := Nat.lt_of_lt_of_le h slots.length_le
  have hargs : ∀ arg ∈ [Arg.dynamic slot, .state], arg.InRange := by simp [Arg.InRange, hrange]
  exact args_make hargs (Nat.le_add_right 2 4) ..

theorem check_nested (executor : Address) (h : slot.toNat < slots.size) :
    Preflight.check [nested executor slot] slots.size = .ok () := by
  have hsize : ¬ slots.size > maxSlots := Nat.not_lt.mpr slots.length_le
  have hread : Preflight.checkArgs slots.size (Preflight.readArgs (nested executor slot)) = .ok () := by
    rw [Preflight.checkArgs_eq_ok]
    simp [Preflight.readArgs, has_nested, args_nested executor h, Preflight.Readable, Arg.slot?, h]
  simp [Preflight.check, hsize, Preflight.checkFrom, Preflight.checkCommand, kind_nested, hread,
    output_nested, Preflight.countAfter]

theorem callData_nested (executor : Address) (h : slots.values[slot.toNat]? = some content) :
    (nested executor slot).callData 0 slots =
      .ok ⟨Contract.Executor.input content slots.values, .zero⟩ := by
  have hargs := args_nested executor (List.getElem?_eq_some_iff.mp h).1
  simp [callData, splitValue, kind_nested, hargs, inputTokens, has_nested, Arg.tokens, Arg.token,
    Slots.get_eq_ok h, inputFront_nested, Abi.encodeAfter_eq, Contract.Executor.input]

end Command

/-! ## The call -/

/-- Code with one function answers every call of it. -/
theorem Code.route_of_singleton {code : Code} {function : Function} (h : code.functions = [function])
    (frame : Frame) (args : Bytes) :
    code.route frame ((Selector.ofSignature function.signature).bytes ++ args) =
      function.body frame args :=
  route_of_selector [] [] h (fun _ hother => by cases hother) frame args

namespace Contract.Executor

/-- The executor runs what its arguments hold, and makes the calls of that run itself. -/
theorem perform_run {args records : Bytes} {state : List Bytes}
    (hrecords : Calldata.bytes args 0 = .ok records) (hstate : Calldata.bytesArray args 1 = .ok state)
    (host : Host Flat) (frame : Frame) (s : Flat) :
    Flat.perform host frame (run frame args) s =
      match (execute (records.chunks 32) state).run host s with
      | (.ok values, s) => (.ok (Abi.encode [.bytesArray values]), s)
      | (.error e, s) => (.error (failure e), s) := by
  have hread {α β : Type} (result : α) (k : α → Action β) :
      ((liftM (Except.ok result : Except RevertData α) : Action α) >>= k) = k result := rfl
  simp only [run, hrecords, hstate, hread, Flat.perform_bind, Flat.perform_ofDialogue]
  rcases (execute (records.chunks 32) state).run host s with ⟨e | values, s'⟩ <;> rfl

/-- The executor reads back what was sent to it. -/
theorem perform_route {records : List Record} {state : List Bytes}
    (hfits : Abi.Addressable [.bytes (records.flatMap (·.bytes)), .bytesArray state])
    (host : Host Flat) (frame : Frame) (s : Flat) :
    Flat.perform host frame (code.route frame (input (records.flatMap (·.bytes)) state)) s =
      match (execute (records.map (·.bytes)) state).run host s with
      | (.ok values, s) => (.ok (Abi.encode [.bytesArray values]), s)
      | (.error e, s) => (.error (failure e), s) := by
  have hfunctions : code.functions = [⟨"execute(bytes,bytes[])", run⟩] := rfl
  rw [input, Code.route_of_singleton hfunctions]
  generalize hargs : Abi.encode [.bytes (records.flatMap (·.bytes)), .bytesArray state] = args
  have hrecords : Calldata.bytes args 0 = .ok (records.flatMap (·.bytes)) := by
    rw [Calldata.bytes, ← hargs, Abi.bytesAt_encode rfl hfits]
    rfl
  have hstate : Calldata.bytesArray args 1 = .ok state := by
    rw [Calldata.bytesArray, ← hargs, Abi.bytesArrayAt_encode rfl hfits]
    rfl
  have hchunks : Bytes.chunks 32 (records.flatMap (·.bytes)) = records.map (·.bytes) :=
    Bytes.chunks_flatMap (by decide) records
  rw [perform_run hrecords hstate, hchunks]

end Contract.Executor

namespace Flat

variable {κ : Type} [Deployable κ] {contracts : Contracts κ} {executor : Address} {records : List Record}
  {deployed : κ}

/-- A delegated call to the executor is a run in the frame of the caller, with one call less of room. -/
theorem dispatch_nested {state : List Bytes} (hexecutor : contracts.get? executor = some deployed)
    (hcode : ∀ depth, Deployable.code deployed depth = Contract.Executor.code)
    (hfits : Abi.Addressable [.bytes (records.flatMap (·.bytes)), .bytesArray state])
    (room : Nat) (parent : Frame) (before : Flat) :
    dispatch contracts (room + 1) parent
        ⟨.delegate, executor, Contract.Executor.input (records.flatMap (·.bytes)) state, .zero⟩ before =
      match (CallScript.execute (records.map (·.bytes)) state).run (dispatch contracts room parent) before with
      | (.ok values, s) => (.success (Abi.encode [.bytesArray values]), s)
      | (.error e, _) => (.failure (Contract.Executor.failure e), before) := by
  have hpay (input : Bytes) : payFor parent ⟨.delegate, executor, input, .zero⟩ before = (.ok (), before) :=
    if_neg (by simp)
  simp only [dispatch, hpay, Frame.child, hexecutor, hcode, Contract.Executor.perform_route hfits,
    dispatch_code]
  generalize Dialogue.run (dispatch contracts room parent) _ before = ended
  rcases ended with ⟨e | values, s⟩ <;> rfl

variable {slots : Slots} {slot : UInt8}

/-- A nested run is the run itself with one call less of room. Its error is handed on by the executor, and
the state it ends with is read back. -/
theorem run_nested (hexecutor : contracts.get? executor = some deployed)
    (hcode : ∀ depth, Deployable.code deployed depth = Contract.Executor.code)
    (hslot : slots.values[slot.toNat]? = some (records.flatMap (·.bytes)))
    (hfits : Abi.Addressable [.bytes (records.flatMap (·.bytes)), .bytesArray slots.values])
    (room : Nat) (frame : Frame) (before : Flat) :
    (CallScript.execute [(Command.nested executor slot).toRecord.bytes] slots.values).run
        (dispatch contracts (room + 1) frame) before =
      match (CallScript.execute (records.map (·.bytes)) slots.values).run (dispatch contracts room frame)
        before with
      | (.ok values, s) =>
        let kept := (Command.nested executor slot).keep slots (Abi.encode [.bytesArray values])
        (kept.1.map fun _ => kept.2.values, s)
      | (.error e, _) => (.error (.calleeFailure 0 (Contract.Executor.failure e)), before) := by
  have hcheck := Command.check_nested executor (List.getElem?_eq_some_iff.mp hslot).1
  simp only [Run.run_execute_singleton hcheck, Run.run_step, Command.callData_nested executor hslot,
    Run.message, Command.kind_nested]
  have hcall := dispatch_nested hexecutor hcode hfits room frame before
  have htarget : (Command.nested executor slot).target = executor := rfl
  rw [htarget, hcall]
  generalize Dialogue.run (dispatch contracts room frame) _ before = ended
  rcases ended with ⟨e | values, s⟩ <;> rfl

end Flat

/-! ## Worlds -/

namespace World

end World

end CallScript
