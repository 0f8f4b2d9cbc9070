import CallScript.Cli.Load
import CallScript.World

/-!
# The script runner

Runs a script in a world with the whole library, and prints the final state and the events.
-/

namespace CallScript.Cli.Runner

/-- The usage of the program under its name. -/
def usage (program : String) : String :=
  s!"Command Script Runner

USAGE:
    {program} <script> [OPTIONS]

ARGS:
    <script>    Assembly text or binary script

OPTIONS:
    --caller <0xaddr>      Account the run is made on behalf of
    --executor <0xaddr>    Account the commands execute as
    --value <amount>       Value sent from caller to executor (caller is funded with it)
    --output <file>        Write the final state to a file
    -h, --help             Print this help message

ENVIRONMENT:
    OPCHAIN_LOG            Minimum log level: debug, info, warn, error

EXAMPLES:
    {program} fib.asm
    {program} fib.opc --value 1000 --output state.txt
"

/-- What the command line asks for beside the script. -/
structure Options where
  caller : Address := .ofLowByte 1
  executor : Address := .ofLowByte 2
  value : Word := .zero
  output? : Option String := none

/-- What is wrong with a command line. -/
inductive OptionError where
  | unexpected (flag : String)
  | missing (flag : String)
  | badAddress (flag : String) (error : Address.ParseError)
  | badAmount (text : String)

/-- Sets the option of a flag. -/
def Options.set (options : Options) (flag text : String) : Except OptionError Options :=
  match flag with
  | "--caller" =>
    match Address.parse text with
    | .ok caller => .ok { options with caller }
    | .error e => .error (.badAddress flag e)
  | "--executor" =>
    match Address.parse text with
    | .ok executor => .ok { options with executor }
    | .error e => .error (.badAddress flag e)
  | "--value" =>
    match Text.decimal? 128 text.toList with
    | some amount => .ok { options with value := .ofNat amount }
    | none => .error (.badAmount text)
  | _ => .ok { options with output? := some text }

/-- Reads the options behind the script. -/
def Options.parse (options : Options) : List String → Except OptionError Options
  | [] => .ok options
  | flag :: rest =>
    if ["--caller", "--executor", "--value", "--output"].contains flag then
      match rest with
      | [] => .error (.missing flag)
      | text :: rest => do
        let options ← options.set flag text
        options.parse rest
    else .error (.unexpected flag)

/-- Reports what is wrong with a command line, and ends the program. -/
def refuse {α : Type} (program : String) : OptionError → Shell α
  | .unexpected flag => do
    Shell.error s!"Unexpected argument: {flag}\n"
    Shell.info (usage program)
    .exit 1
  | .missing flag => Shell.fail 1 s!"{flag} requires an argument"
  | .badAddress flag e => Shell.fail 1 s!"{flag}: {e.message}"
  | .badAmount text => Shell.fail 1 s!"Invalid value: '{text}' is not a valid amount"

/-- The line of a slot of the final state. -/
def slotLine (index : Nat) (value : Bytes) : String :=
  let number := toString index
  let gap := String.ofList (List.replicate (3 - number.length) ' ')
  s!"s{number}{gap} {Hex.render value}\n"

/-- The account of an event: the alias of a library contract, or an address. -/
def source (address : Address) : String :=
  match Contract.library.find? (·.address = address) with
  | some contract => s!"@{contract.shortName}"
  | none => address.toHex

/-- The line of an event. -/
def eventLine (event : Event) : String :=
  s!"event {event.name} from {source event.address}: {Hex.render event.data}\n"

/-- The final state as it is written to a file. -/
def stateText (state : List Bytes) : String :=
  String.join (state.map fun value => Hex.render value ++ "\n")

/-- Runs a loaded script. -/
def runScript (options : Options) (script : Script) : Shell Unit := do
  let funded :=
    if options.value.isZero then World.library
    else World.library.setBalance options.caller options.value
  Shell.notes funded.journal
  Shell.info (s!"Running {script.commands.length} commands over {script.state.length} slots as " ++
    options.executor.toHex)
  let (result, world) := funded.execute options.caller options.executor
    (script.commands.map (·.bytes)) script.state options.value
  Shell.notes (world.journal.drop funded.journal.length)
  match result with
  | .error e => Shell.fail 2 s!"Run failed: {e.message}"
  | .ok state =>
    Shell.say (String.join (state.zipIdx.map fun (value, index) => slotLine index value))
    Shell.say (String.join (world.events.map eventLine))
    match options.output? with
    | none => return ()
    | some path =>
      match ← Shell.write path (Bytes.ofText (stateText state)) with
      | .error e => Shell.fail 1 s!"Failed to write {path}: {e.message}"
      | .ok () => Shell.info s!"Final state written to {path}"

/-- The program under its name, with the arguments behind the name. -/
def run (program : String) : List String → Shell Unit
  | [] => do
    Shell.info (usage program)
    .exit 1
  | first :: rest =>
    if first = "--help" || first = "-h" then Shell.info (usage program)
    else
      match Options.parse {} rest with
      | .error e => refuse program e
      | .ok options => do
        match ← loadScript libraryAliases first with
        | .error e => Shell.fail 1 s!"Failed to load {first}: {e.message}"
        | .ok script => runScript options script

end CallScript.Cli.Runner
