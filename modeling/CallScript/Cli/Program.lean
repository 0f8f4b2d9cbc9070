import CallScript.Cli.Assembler
import CallScript.Cli.Files
import CallScript.Cli.Runner

/-!
# The programs

Two programs share this library; the name under which one is started tells which it is.
-/

namespace CallScript.Cli

/-- The program of a name. -/
def program (name : String) (args : List String) : Shell Unit :=
  if name = "opchain-asm" then Assembler.run name args else Runner.run name args

/-- Runs a program on described files, with the level that the environment asks for. -/
def runProgram (name : String) (args : List String) (files : Files) (level? : Option String) :
    UInt8 × Trace :=
  match (program name args).runOn (leastLevel level?) { files } with
  | (.ok (), trace) => (0, trace)
  | (.error code, trace) => (code, trace)

end CallScript.Cli
