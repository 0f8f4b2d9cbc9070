import CallScript.Contract.Calldata
import CallScript.Contract.Code
import CallScript.Run.Basic

/-!
# Runs inside a call

The executor runs a list of commands in its own frame, so a script can run another one that it holds
in a slot.
-/

namespace CallScript.Contract.Executor

/-- A run's error as the failure of a call: the payload of a failed callee is passed on as it is, any
other error becomes a reason. -/
def failure : RunError → RevertData
  | .calleeFailure _ data => data
  | e => .reason e.message

/-- Runs records that stand one after the other, and returns the final state. -/
def run (_ : Frame) (args : Bytes) : Action Bytes := do
  let records ← Calldata.bytes args 0
  let state ← Calldata.bytesArray args 1
  match ← Action.ofDialogue (execute (records.chunks 32) state) with
  | .ok values => return Abi.encode [.bytesArray values]
  | .error e => .revert (failure e)

def code : Code where
  name := "Executor"
  functions := [⟨"execute(bytes,bytes[])", run⟩]

end CallScript.Contract.Executor
