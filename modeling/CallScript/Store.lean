import CallScript.SortedMap
import CallScript.Word.Basic

/-!
# Stores

A store binds words to byte strings. Work that may be undone is done on an overlay: it keeps its own
writes, with a mark for a removed key, and reads through to the store below. A commit hands the writes
down in key order, a discard forgets them.
-/

namespace CallScript

/-- What overlays hand down: a value to bind, or none for a key to remove. -/
abbrev Writes := List (Word × Option Bytes)

/-- Bindings, and the overlays on top of them. -/
inductive Store where
  | base (bindings : SortedMap Word Bytes)
  | overlay (below : Store) (writes : SortedMap Word (Option Bytes))

namespace Store

def empty : Store := .base .empty

instance : Inhabited Store := ⟨empty⟩

/-- The value bound to a key. -/
def get? : Store → Word → Option Bytes
  | .base bindings, key => bindings.get? key
  | .overlay below writes, key =>
    match writes.get? key with
    | some value? => value?
    | none => below.get? key

/-- Binds a key. -/
def put (key : Word) (value : Bytes) : Store → Store
  | .base bindings => .base (bindings.insert key value)
  | .overlay below writes => .overlay below (writes.insert key (some value))

/-- Removes a key. -/
def erase (key : Word) : Store → Store
  | .base bindings => .base (bindings.erase key)
  | .overlay below writes => .overlay below (writes.insert key none)

/-- Makes one write. -/
def write (s : Store) (key : Word) : Option Bytes → Store
  | some value => s.put key value
  | none => s.erase key

/-- Makes writes in order. -/
def apply (s : Store) (writes : Writes) : Store :=
  writes.foldl (fun s w => s.write w.1 w.2) s

/-- Opens an overlay. -/
def opened (s : Store) : Store :=
  .overlay s .empty

/-- The writes of the innermost overlay, in key order. -/
def writes : Store → Writes
  | .base _ => []
  | .overlay _ writes => writes.entries

/-- What the innermost overlay lies on. -/
def below? : Store → Option Store
  | .base _ => none
  | .overlay below _ => some below

/-- Closes the innermost overlay and keeps its writes. -/
def commit : Store → Store
  | .base bindings => .base bindings
  | .overlay below writes => below.apply writes.entries

/-- Closes the innermost overlay and forgets its writes. -/
def discard : Store → Store
  | .base bindings => .base bindings
  | .overlay below _ => below

/-- The bindings below all overlays. -/
def bottom : Store → SortedMap Word Bytes
  | .base bindings => bindings
  | .overlay below _ => below.bottom

/-- The word bound to a key; zero if there is none, or if the value has not 32 bytes. -/
def word (s : Store) (key : Word) : Word :=
  ((s.get? key).bind Word.ofBytes?).getD .zero

end Store

end CallScript
