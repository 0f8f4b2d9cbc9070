import CallScript.Cli.Path
import CallScript.Cli.Shell

/-!
# Described files

Files are given by their contents, each under the names on the way to it from the root. A directory exists
if a file lies in it, or if the working directory does.
-/

namespace CallScript.Cli

/-- The files of a machine, as far as they matter. -/
structure Files where
  /-- The working directory: the names on the way to it from the root. -/
  here : List String := []
  contents : List (List String × Bytes) := []

namespace Files

/-- The content of a file. -/
def content? (files : Files) (name : List String) : Option Bytes :=
  files.contents.lookup name

/-- Whether a name is that of a directory. -/
def isDirectory (files : Files) (name : List String) : Bool :=
  name.isPrefixOf files.here ||
    files.contents.any fun file => name.isPrefixOf file.1 && name.length < file.1.length

/-- Puts a file in its place. -/
def put (files : Files) (name : List String) (data : Bytes) : Files :=
  { files with contents := (name, data) :: files.contents.filter (·.1 ≠ name) }

/-- Whether `name` can be gone through on the way to another name. -/
def enter (files : Files) (name : List String) : Except FileError Unit :=
  if files.isDirectory name then .ok ()
  else if (files.content? name).isSome then .error .notDirectory
  else .error .notFound

/-- Follows names from a place. Above the root there is only the root. -/
def follow (files : Files) (place : List String) : List String → Except FileError (List String)
  | [] => .ok place
  | name :: rest => do
    files.enter place
    if name = "" || name = "." then follow files place rest
    else if name = ".." then follow files place.dropLast rest
    else follow files (place ++ [name]) rest

/-- The name that a path leads to, from the root or from the working directory. -/
def locate (files : Files) (path : String) : Except FileError (List String) :=
  match Path.split path with
  | [""] => .error .notFound
  | "" :: names => files.follow [] names
  | names => files.follow files.here names

/-- Reads a file. -/
def read (files : Files) (path : String) : Except FileError Bytes := do
  let name ← files.locate path
  match files.content? name with
  | some data => return data
  | none => throw (if files.isDirectory name then .isDirectory else .notFound)

/-- Whether a path leads to a file or a directory. -/
def doesExist (files : Files) (path : String) : Bool :=
  match files.locate path with
  | .ok name => files.isDirectory name || (files.content? name).isSome
  | .error _ => false

/-- Writes a file. -/
def write (files : Files) (path : String) (data : Bytes) : Except FileError Files := do
  let name ← files.locate path
  if files.isDirectory name then throw .isDirectory
  return files.put name data

/-- The files of some paths in a working directory, with their contents. -/
def ofList (here : List String) (files : List (String × Bytes)) : Files :=
  files.foldl (fun files file =>
    files.put (here ++ (Path.split file.1).filter fun name => name ≠ "" && name ≠ ".") file.2) { here }

end Files

/-- What a program leaves behind. -/
structure Trace where
  files : Files
  stdout : String := ""
  stderr : String := ""

/-- Runs a program on described files, up to its result or its exit code. -/
def Shell.runOn {α : Type} (least : Level) : Shell α → Trace → Except UInt8 α × Trace
  | .done result, t => (.ok result, t)
  | .exit code, t => (.error code, t)
  | .print text next, t => next.runOn least { t with stdout := t.stdout ++ text }
  | .log level text next, t =>
    next.runOn least { t with stderr := t.stderr ++ logLine least level text }
  | .readFile path next, t => (next (t.files.read path)).runOn least t
  | .pathExists path next, t => (next (t.files.doesExist path)).runOn least t
  | .writeFile path data next, t =>
    match t.files.write path data with
    | .ok files => (next (.ok ())).runOn least { t with files }
    | .error e => (next (.error e)).runOn least t

end CallScript.Cli
