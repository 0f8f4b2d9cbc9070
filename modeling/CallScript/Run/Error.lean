import CallScript.Revert

/-!
# Errors of a run
-/

namespace CallScript

/-- The most slots that a run can address. Dynamic references to slots 126 and 127 would collide with
the two marks of the index byte. -/
def maxSlots : Nat := 126

/-- Where a run stands. -/
inductive Status where
  /-- Accepted, and nothing called yet. -/
  | ready
  /-- Every command succeeded. -/
  | completed
  /-- A command failed, and none after it was run. -/
  | aborted
  deriving DecidableEq

def Status.name : Status → String
  | .ready => "Ready"
  | .completed => "Completed"
  | .aborted => "Aborted"

/-- Why commands are refused, or why a run ends early. -/
inductive RunError where
  /-- A record does not have 32 bytes. -/
  | malformedCommand (index length : Nat)
  /-- A reference to a slot that does not exist. -/
  | slotOutOfRange (slot : UInt8) (available : Nat)
  /-- The target failed; its payload is kept as it is. -/
  | calleeFailure (command : Nat) (data : RevertData)
  /-- Data does not have the shape that a command asks for. -/
  | mismatch (found : Abi.Mismatch)
  /-- A value call whose first argument is no static slot. -/
  | missingValueSlot (command : Nat)
  /-- More slots than can be addressed. -/
  | tooManySlots (count : Nat)
  /-- A run that is over cannot be started again. -/
  | notReady (status : Status)
  /-- The caller cannot pay the value that goes with the run. -/
  | insufficientBalance (needed available : Nat)
  deriving DecidableEq

def RunError.message : RunError → String
  | .malformedCommand index length =>
    s!"command {index} is malformed: expected 32 bytes, got {length}"
  | .slotOutOfRange slot available =>
    s!"slot {slot.toNat} out of range ({available} slots available)"
  | .calleeFailure command data => s!"command {command} failed: {data.describe}"
  | .mismatch found => found.message
  | .missingValueSlot command =>
    s!"command {command} is a value call without a static value slot"
  | .tooManySlots count => s!"state of {count} slots exceeds the maximum of {maxSlots}"
  | .notReady status => s!"engine is {status.name}, expected Ready"
  | .insufficientBalance needed available =>
    s!"insufficient balance: need {needed}, have {available}"

end CallScript
