import CallScript.Assembly.Assemble
import CallScript.Assembly.Diagnostic
import CallScript.Cli.Shell
import CallScript.Contract.Library

/-!
# Loading scripts

A script file holds either the binary form or assembly text. The magic tells them apart.
-/

namespace CallScript.Cli

/-- Why a script cannot be loaded. -/
inductive LoadError where
  | file (path : String) (error : FileError)
  | script (error : ScriptError)
  | assembly (error : Assembly.Error)
  deriving DecidableEq

def LoadError.message : LoadError → String
  | .file path error => s!"io error on {path}: {error.message}"
  | .script error => error.message
  | .assembly error => error.message

/-- The aliases of the library. -/
def libraryAliases : Assembly.Aliases :=
  .ofList Contract.aliases

/-- Assembles a source and logs a diagnostic if that fails. -/
def assembleSource (aliases : Assembly.Aliases) (file source : String) :
    Shell (Except LoadError Script) := do
  match Assembly.assemble aliases source with
  | .ok script => return .ok script
  | .error e =>
    Shell.error (e.diagnostic file source)
    return .error (.assembly e)

/-- Loads a script in either form. -/
def loadScript (aliases : Assembly.Aliases) (path : String) : Shell (Except LoadError Script) := do
  match ← Shell.read path with
  | .error e => return .error (.file path e)
  | .ok data =>
    if Script.isBinary data then
      match Script.ofBytes data with
      | .ok script => return .ok script
      | .error e => return .error (.script e)
    else
      match data.toText? with
      | none => return .error (.script .notText)
      | some source => assembleSource aliases path source

/-- Loads a script from assembly text. -/
def loadText (aliases : Assembly.Aliases) (path : String) : Shell (Except LoadError Script) := do
  match ← Shell.readText path with
  | .error e => return .error (.file path e)
  | .ok source => assembleSource aliases path source

/-- Writes the binary form of a script. -/
def saveScript (script : Script) (path : String) : Shell (Except LoadError Unit) := do
  match ← Shell.write path script.toBytes with
  | .error e => return .error (.file path e)
  | .ok () => return .ok ()

end CallScript.Cli
