import CallScript.Command
import CallScript.Run.Slots

/-!
# What a command keeps

The output of a command says what becomes of the data that its call returned.
-/

namespace CallScript

/-- An error of the reader as an error of the run. -/
def RunError.ofMismatch {α : Type} : Except Abi.Mismatch α → Except RunError α
  | .ok a => .ok a
  | .error found => .error (.mismatch found)

namespace Command

/-- The bytes that go into the slot of an output. -/
def slotValue (c : Command) (dynamic : Bool) (data : Bytes) : Except RunError Bytes :=
  if c.has .tuple then return data
  else if dynamic then
    RunError.ofMismatch (if c.has .abiTail then Abi.tailOf data else Abi.bytesAt data 0)
  else if data.length < 32 then throw (.mismatch ⟨.staticReturn, 32, data.length⟩)
  else return data.take 32

/-- Puts the data that the call of a command returned where its output says. -/
def keep (c : Command) (slots : Slots) (data : Bytes) : Except RunError Unit × Slots :=
  match c.output with
  | .discard => (.ok (), slots)
  | .replaceState => slots.put Slots.replace (RunError.ofMismatch (Abi.bytesArrayAt data 0))
  | .static slot => slots.put (·.set slot) (c.slotValue false data)
  | .dynamic slot => slots.put (·.set slot) (c.slotValue true data)

end Command

end CallScript
