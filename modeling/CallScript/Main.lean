import CallScript.Cli.Program

/-!
# The command line
-/

namespace CallScript.Cli

/-- An error of the machine as an error of a file. -/
def FileError.ofIO : IO.Error → FileError
  | .noFileOrDirectory .. => .notFound
  | e => .other (toString e)

/-- A result of the machine, or its error. -/
def attempt {α : Type} (action : IO α) : IO (Except FileError α) := do
  try
    return .ok (← action)
  catch e =>
    return .error (.ofIO e)

/-- Runs a program on the files of the machine, and gives its exit code. -/
def Shell.runHere (least : Level) : Shell Unit → IO UInt8
  | .done () => return 0
  | .exit code => return code
  | .print text next => do
    IO.print text
    next.runHere least
  | .log level text next => do
    IO.eprint (logLine least level text)
    next.runHere least
  | .readFile path next => do
    let content ← attempt (IO.FS.readBinFile path)
    (next (content.map (·.data.toList))).runHere least
  | .pathExists path next => do
    let found ← (System.mkFilePath [path]).pathExists
    (next found).runHere least
  | .writeFile path data next => do
    let written ← attempt (IO.FS.writeBinFile path ⟨data.toArray⟩)
    (next written).runHere least

end CallScript.Cli

open CallScript.Cli in
/-- The program that the executable's name asks for. -/
def main (args : List String) : IO UInt32 := do
  let name := (← IO.appPath).fileName.getD "opchain"
  let least := leastLevel (← IO.getEnv "OPCHAIN_LOG")
  let code ← (program name args).runHere least
  return code.toUInt32
