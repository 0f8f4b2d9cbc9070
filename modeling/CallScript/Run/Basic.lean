import CallScript.Run.CallData
import CallScript.Run.Dialogue
import CallScript.Run.Preflight
import CallScript.Run.Return

/-!
# Runs

A run walks through its commands in order: it builds the input of a command, makes the call, and
keeps what came back. The first command that fails ends the run.
-/

namespace CallScript

/-- Commands and the state they work on. -/
structure Run where
  commands : List Command
  slots : Slots
  /-- The position of the next command. -/
  pc : Nat := 0
  status : Status := .ready

namespace Run

/-- Accepts commands and an initial state, if all checks succeed. -/
def load (commands : List Command) (state : List Bytes) : Except RunError Run := do
  let slots ← Slots.ofList state
  Preflight.check commands slots.size
  return { commands, slots }

/-- Accepts records in place of commands. -/
def ofRecords (records : List Bytes) (state : List Bytes) : Except RunError Run := do
  let commands ← Command.decodeAll records
  load commands state

/-- Runs the command at position `index`. -/
def step (index : Nat) (c : Command) (slots : Slots) : Dialogue (Except RunError Unit × Slots) :=
  match c.callData index slots with
  | .error e => .done (.error e, slots)
  | .ok data =>
    .note (.calling index c data.input.length) <|
    .ask ⟨c.kind, c.target, data.input, data.value⟩ fun
      | .failure payload => .done (.error (.calleeFailure index payload), slots)
      | .success returned => .done (c.keep slots returned)

/-- How the commands of a run ended: the slots and the position they left, and what went wrong. -/
structure Finish where
  slots : Slots
  pc : Nat
  error? : Option RunError

/-- Runs commands, the first of which has position `index`. -/
def steps (index : Nat) (slots : Slots) : List Command → Dialogue Finish
  | [] => .done ⟨slots, index, none⟩
  | c :: rest =>
    (step index c slots).bind fun
      | (.error e, slots) => .note (.aborted index e) (.done ⟨slots, index, some e⟩)
      | (.ok (), slots) => steps (index + 1) slots rest

/-- Runs all commands, unless that was done before. -/
def start (r : Run) : Dialogue (Except RunError Unit × Run) :=
  match r.status with
  | .ready =>
    (steps r.pc r.slots (r.commands.drop r.pc)).bind fun finish =>
      match finish.error? with
      | none => .done (.ok (), { r with slots := finish.slots, pc := finish.pc, status := .completed })
      | some e =>
        .done (.error e, { r with slots := finish.slots, pc := finish.pc, status := .aborted })
  | status => .done (.error (.notReady status), r)

end Run

/-- Runs records over a state, and gives the final state. -/
def execute (records : List Bytes) (state : List Bytes) :
    Dialogue (Except RunError (List Bytes)) :=
  match Run.ofRecords records state with
  | .error e => .done (.error e)
  | .ok r =>
    r.start.bind fun
      | (.error e, _) => .done (.error e)
      | (.ok (), r) => .done (.ok r.slots.values)

end CallScript
