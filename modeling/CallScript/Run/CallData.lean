import CallScript.Command
import CallScript.Run.Slots

/-!
# What a command sends

A value call takes its value from its first argument, which has to be a static slot. The remaining
arguments are laid out behind the selector.
-/

namespace CallScript

/-- The input of a call and the value that goes with it. -/
structure CallData where
  input : Bytes
  value : Word
  deriving DecidableEq

/-- The value that an argument stands for. -/
def Arg.token (slots : Slots) (abiTail : Bool) : Arg → Except RunError Abi.Token
  | .static slot => return .word (← slots.word slot)
  | .dynamic slot => do
    let bytes ← slots.get slot
    return if abiTail then .tail bytes else .bytes bytes
  | .state => return .bytesArray slots.values

/-- The values that a list of arguments stands for; the first faulty argument decides the error. -/
def Arg.tokens (slots : Slots) (abiTail : Bool) : List Arg → Except RunError (List Abi.Token)
  | [] => return []
  | arg :: rest => do
    let token ← arg.token slots abiTail
    let tokens ← Arg.tokens slots abiTail rest
    return token :: tokens

namespace Command

/-- The value to send, and the arguments that are left for the input. -/
def splitValue (index : Nat) (c : Command) (slots : Slots) : Except RunError (Word × List Arg) :=
  match c.kind with
  | .value =>
    match c.args with
    | .static slot :: rest => return (← slots.word slot, rest)
    | _ => throw (.missingValueSlot index)
  | _ => return (.zero, c.args)

/-- The values in the input of a command. -/
def inputTokens (c : Command) (slots : Slots) (args : List Arg) :
    Except RunError (List Abi.Token) :=
  if c.has .stateInput then return [.bytesArray slots.values]
  else Arg.tokens slots (c.has .abiTail) args

/-- What the input of a command begins with. -/
def inputFront (c : Command) : Bytes :=
  if c.isFallback then [] else c.selector.bytes

/-- What the command at position `index` sends. -/
def callData (index : Nat) (c : Command) (slots : Slots) : Except RunError CallData := do
  let (value, args) ← c.splitValue index slots
  let tokens ← c.inputTokens slots args
  return ⟨Abi.encodeAfter c.inputFront tokens, value⟩

end Command

end CallScript
