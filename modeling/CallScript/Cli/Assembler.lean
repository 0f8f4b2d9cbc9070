import CallScript.Assembly.Disassemble
import CallScript.Cli.Load
import CallScript.Cli.Path

/-!
# The script assembler

Turns assembly text into the binary form of a script, and back.
-/

namespace CallScript.Cli.Assembler

/-- The usage of the program under its name. -/
def usage (program : String) : String :=
  s!"Command Script Assembler

USAGE:
    {program} <input> [OPTIONS]

ARGS:
    <input>    Assembly source (or binary script with --disassemble)

OPTIONS:
    -o, --output <file>     Output file path (defaults to <input>.opc)
    -d, --disassemble       Print a binary script as assembly text
    -h, --help              Print this help message

EXAMPLES:
    # Assemble to default output name
    {program} fib.asm

    # Assemble with explicit output
    {program} fib.asm -o fib.opc

    # Show what a binary script does
    {program} fib.opc -d
"

/-- What the command line asks for beside the input. -/
structure Options where
  output? : Option String := none
  disassemble : Bool := false

/-- What is wrong with a command line. -/
inductive OptionError where
  | unexpected (argument : String)
  | missing (flag : String)

/-- Reads the options behind the input. -/
def Options.parse (options : Options) : List String → Except OptionError Options
  | [] => .ok options
  | flag :: rest =>
    if flag = "--output" || flag = "-o" then
      match rest with
      | [] => .error (.missing flag)
      | path :: rest => { options with output? := some path : Options }.parse rest
    else if flag = "--disassemble" || flag = "-d" then
      { options with disassemble := true : Options }.parse rest
    else .error (.unexpected flag)

/-- Reports what is wrong with a command line, and ends the program. -/
def refuse {α : Type} (program : String) : OptionError → Shell α
  | .unexpected argument => do
    Shell.error s!"Unexpected argument: {argument}\n"
    Shell.info (usage program)
    .exit 1
  | .missing flag => Shell.fail 1 s!"{flag} requires an argument"

/-- The output of an input: its name with the ending `.opc`, in the same directory. -/
def defaultOutput (input : String) : String :=
  let stem := ((Path.fileName? input).map Path.stem).getD ""
  Path.inside ((Path.parent? input).getD ".") (stem ++ ".opc")

/-- Ends the program if the directory of an output does not exist. -/
def requireDirectory (output : String) : Shell Unit :=
  match Path.parent? output with
  | none => return ()
  | some directory => do
    if directory ≠ "" then
      unless ← Shell.doesExist directory do
        Shell.fail 1 s!"Output directory does not exist: {directory}"

/-- Assembles an input. -/
def assembleFile (input output : String) : Shell Unit := do
  requireDirectory output
  match ← loadText libraryAliases input with
  | .error e => Shell.fail 1 s!"Assembly failed: {e.message}"
  | .ok script =>
    let data := script.toBytes
    match ← Shell.write output data with
    | .error e => Shell.fail 1 s!"Failed to write output file: {e.message}"
    | .ok () =>
      Shell.info (s!"Assembled {input} -> {output} ({script.commands.length} commands, " ++
        s!"{script.state.length} slots, {data.length} bytes)")

/-- Writes the text of a disassembled input to its place. -/
def deliver (input : String) (output? : Option String) (text : String) : Shell Unit := do
  match output? with
  | none => Shell.say text
  | some path =>
    match ← Shell.write path (Bytes.ofText text) with
    | .error e => Shell.fail 1 s!"Failed to write output file: {e.message}"
    | .ok () => Shell.info s!"Disassembled {input} -> {path}"

/-- Disassembles an input. -/
def disassembleFile (input : String) (output? : Option String) : Shell Unit := do
  match ← Shell.read input with
  | .error e => Shell.fail 1 s!"Failed to read {input}: {e.message}"
  | .ok data =>
    match Script.ofBytes data with
    | .error e => Shell.fail 1 s!"Disassembly failed: {e.message}"
    | .ok script => deliver input output? (Assembly.disassemble libraryAliases script)

/-- The program under its name, with the arguments behind the name. -/
def run (program : String) : List String → Shell Unit
  | [] => do
    Shell.info (usage program)
    .exit 1
  | first :: rest =>
    if first = "--help" || first = "-h" then Shell.info (usage program)
    else
      match Options.parse {} rest with
      | .error e => refuse program e
      | .ok options => do
        unless ← Shell.doesExist first do
          Shell.fail 1 s!"Input file does not exist: {first}"
        if options.disassemble then disassembleFile first options.output?
        else assembleFile first (options.output?.getD (defaultOutput first))

end CallScript.Cli.Assembler
