/-!
# Paths

The names in a path are divided by slashes. An empty name and a single dot stand for nothing, except
for a dot at the beginning.
-/

namespace CallScript.Cli.Path

/-- The names of a path, as they are written. -/
def split (path : String) : List String :=
  (path.toList.splitOn '/').map String.ofList

/-- The names without those at the end that stand for nothing. -/
def trimNames (names : List String) : List String :=
  match names with
  | [] => []
  | first :: rest => first :: (rest.reverse.dropWhile fun name => name = "" || name = ".").reverse

/-- The path of some names. -/
def join (names : List String) : String :=
  if names = [""] then "/" else "/".intercalate names

/-- The path without its last name; none if it has no name. -/
def parent? (path : String) : Option String :=
  match trimNames (split path) with
  | [] | [""] => none
  | names => some (join (trimNames names.dropLast))

/-- The last name of a path, if it is the name of a file. -/
def fileName? (path : String) : Option String :=
  match (trimNames (split path)).getLast? with
  | some "" | some "." | some ".." | none => none
  | some name => some name

/-- The name without its last dot and what follows; a dot at the beginning belongs to the name. -/
def stem (name : String) : String :=
  let tail := name.toList.reverse.dropWhile (· ≠ '.')
  match tail with
  | [] | [_] => name
  | _ :: front => String.ofList front.reverse

/-- A name inside a directory. -/
def inside (directory name : String) : String :=
  if directory = "" then name
  else if directory.toList.getLast? = some '/' then directory ++ name
  else directory ++ "/" ++ name

end CallScript.Cli.Path
