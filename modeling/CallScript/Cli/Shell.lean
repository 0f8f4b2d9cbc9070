import CallScript.Journal

/-!
# Programs and their surroundings

A program reads and writes files, prints, and logs. It is a tree of what it does, so that it can be
run on the files of a machine as well as on files that are only described.
-/

namespace CallScript.Cli

/-- Why a file cannot be used. -/
inductive FileError where
  | notFound
  | isDirectory
  | notDirectory
  /-- The content is no UTF-8 text. -/
  | notText
  | other (text : String)
  deriving DecidableEq

def FileError.message : FileError → String
  | .notFound => "No such file or directory (os error 2)"
  | .isDirectory => "Is a directory (os error 21)"
  | .notDirectory => "Not a directory (os error 20)"
  | .notText => "stream did not contain valid UTF-8"
  | .other text => text

/-- What a program does, up to its result or its early end. -/
inductive Shell (α : Type) where
  | done (result : α)
  /-- Ends the program with an exit code. -/
  | exit (code : UInt8)
  | print (text : String) (next : Shell α)
  | log (level : Level) (text : String) (next : Shell α)
  | readFile (path : String) (next : Except FileError Bytes → Shell α)
  | pathExists (path : String) (next : Bool → Shell α)
  | writeFile (path : String) (data : Bytes) (next : Except FileError Unit → Shell α)

namespace Shell

variable {α β : Type}

/-- Goes on after the result. -/
def bind : Shell α → (α → Shell β) → Shell β
  | .done result, k => k result
  | .exit code, _ => .exit code
  | .print text next, k => .print text (next.bind k)
  | .log level text next, k => .log level text (next.bind k)
  | .readFile path next, k => .readFile path fun content => (next content).bind k
  | .pathExists path next, k => .pathExists path fun found => (next found).bind k
  | .writeFile path data next, k => .writeFile path data fun written => (next written).bind k

instance : Monad Shell where
  pure := .done
  bind := bind

/-- Prints a text. -/
def say (text : String) : Shell Unit := .print text (.done ())

def info (text : String) : Shell Unit := .log .info text (.done ())

def error (text : String) : Shell Unit := .log .error text (.done ())

/-- Ends the program with an error message. -/
def fail (code : UInt8) (text : String) : Shell α := .log .error text (.exit code)

/-- Logs the notes of a world. -/
def notes (lines : List Note) : Shell Unit :=
  lines.foldr (fun line next => .log line.level line.text next) (.done ())

/-- The content of a file. -/
def read (path : String) : Shell (Except FileError Bytes) := .readFile path .done

/-- The content of a file as text. -/
def readText (path : String) : Shell (Except FileError String) := do
  match ← read path with
  | .error e => return .error e
  | .ok data =>
    match data.toText? with
    | some text => return .ok text
    | none => return .error .notText

def doesExist (path : String) : Shell Bool := .pathExists path .done

def write (path : String) (data : Bytes) : Shell (Except FileError Unit) := .writeFile path data .done

end Shell

/-- A line of the log, if it is shown when `least` is the lowest level that is. -/
def logLine (least level : Level) (text : String) : String :=
  if level.rank < least.rank then "" else s!"[{level.label}] {text}\n"

/-- The lowest level that is shown: the one that is asked for, or else `info`. -/
def leastLevel (requested? : Option String) : Level :=
  (requested?.bind Level.parse?).getD .info

end CallScript.Cli
