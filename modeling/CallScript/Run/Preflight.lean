import CallScript.Command

/-!
# Checks before a run

Every reference that can be checked without a call is checked before the first one. The number of
slots is followed through the outputs: an output at the current number adds a slot. After a command
that replaces all slots the number is unknown, and later references are left to the run.
-/

namespace CallScript.Preflight

/-- Checks the slots that some arguments read, when there are `count`. -/
def checkArgs (count : Nat) : List Arg → Except RunError Unit
  | [] => return ()
  | arg :: rest =>
    match arg.slot? with
    | some slot =>
      if slot.toNat < count then checkArgs count rest else throw (.slotOutOfRange slot count)
    | none => checkArgs count rest

/-- The arguments whose slots a command reads: all of them, or only the value slot when the whole
state is passed. -/
def readArgs (c : Command) : List Arg :=
  if c.has .stateInput then c.args.take (if c.kind = .value then 1 else 0) else c.args

/-- The number of slots after an output, when there were `count`; none if it is unknown. -/
def countAfter (count : Nat) : Output → Except RunError (Option Nat)
  | .discard => return some count
  | .replaceState => return none
  | .static slot | .dynamic slot =>
    if slot.toNat > count then throw (.slotOutOfRange slot count)
    else if slot.toNat = count then
      if count + 1 > maxSlots then throw (.tooManySlots (count + 1)) else return some (count + 1)
    else return some count

/-- Whether the first argument can hold the value of a value call. -/
def hasValueSlot (c : Command) : Bool :=
  match c.args with
  | arg :: _ => arg.isStatic
  | [] => false

/-- Checks the command at position `index`, and gives the number of slots after it. -/
def checkCommand (index : Nat) (known : Option Nat) (c : Command) : Except RunError (Option Nat) :=
  if c.kind = .value ∧ ¬ hasValueSlot c then throw (.missingValueSlot index)
  else
    match known with
    | none => return none
    | some count => do
      checkArgs count (readArgs c)
      countAfter count c.output

/-- Checks commands, the first of which has position `index`. -/
def checkFrom (index : Nat) (known : Option Nat) : List Command → Except RunError Unit
  | [] => return ()
  | c :: rest => do
    let known ← checkCommand index known c
    checkFrom (index + 1) known rest

/-- Checks the commands of a run that starts with `count` slots. -/
def check (commands : List Command) (count : Nat) : Except RunError Unit :=
  if count > maxSlots then throw (.tooManySlots count) else checkFrom 0 (some count) commands

end CallScript.Preflight
