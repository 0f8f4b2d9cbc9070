import CallScript.Command
import CallScript.Text.Blank

/-!
# The journal

Runs and programs leave lines behind for the reader. Each has a level, and lines below a chosen level
are not shown.
-/

namespace CallScript

/-- How much a line of the journal matters. -/
inductive Level where
  | debug
  | info
  | warn
  | error
  deriving DecidableEq

namespace Level

def rank : Level → Nat
  | .debug => 0
  | .info => 1
  | .warn => 2
  | .error => 3

def label : Level → String
  | .debug => "DEBUG"
  | .info => "INFO"
  | .warn => "WARN"
  | .error => "ERROR"

/-- Reads the name of a level, in any case and between blanks. -/
def parse? (text : String) : Option Level :=
  match String.ofList ((Text.trim text.toList).map Char.toLower) with
  | "debug" => some .debug
  | "info" => some .info
  | "warn" => some .warn
  | "warning" => some .warn
  | "error" => some .error
  | _ => none

end Level

/-- What a run or a world reports while it works. -/
inductive Note where
  /-- A command is about to be called with that many bytes of input. -/
  | calling (index : Nat) (command : Command) (inputLength : Nat)
  /-- A command ended its run. -/
  | aborted (index : Nat) (error : RunError)
  /-- A contract was placed at an address. -/
  | deployed (name : String) (address : Address)
  /-- A run took effect. -/
  | completed (executor : Address) (slots events : Nat)
  /-- A run was undone. -/
  | reverted (executor : Address) (error : RunError)
  deriving DecidableEq

namespace Note

def level : Note → Level
  | .calling .. => .debug
  | .aborted .. => .warn
  | .deployed .. => .info
  | .completed .. => .info
  | .reverted .. => .warn

def text : Note → String
  | .calling index command inputLength =>
    s!"command {index}: {command.describe} ({inputLength} bytes in)"
  | .aborted index error => s!"command {index} aborted the run: {error.message}"
  | .deployed name address => s!"deployed {name} at {address.toHex}"
  | .completed executor slots events =>
    s!"run by {executor.toHex} completed with {slots} slots, {events} events"
  | .reverted executor error => s!"run by {executor.toHex} reverted: {error.message}"

end Note

end CallScript
