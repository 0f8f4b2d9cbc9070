import CallScript.Revert

/-!
# Arguments of a function
-/

namespace CallScript.Calldata

/-- An error of the reader as a failure of the call. -/
def read {α : Type} : Except Abi.Mismatch α → Except RevertData α
  | .ok a => .ok a
  | .error found => .error (.reason s!"invalid calldata: {found.message}")

/-- Argument `index` as a word. -/
def word (args : Bytes) (index : UInt64) : Except RevertData Word :=
  read (Abi.wordAt args index)

/-- Argument `index` as a length or a position. -/
def position (args : Bytes) (index : UInt64) : Except RevertData UInt64 := do
  let w ← word args index
  match w.toUInt64? with
  | some n => return n
  | none => throw (.reason "invalid calldata: integer too large")

/-- Argument `index` as an address, whose upper twelve bytes have to be zero. -/
def address (args : Bytes) (index : UInt64) : Except RevertData Address := do
  let w ← word args index
  if (w.first 12 (by decide)).isZero then return w.toAddress
  else throw (.reason "invalid calldata: dirty address")

/-- Argument `index` as a byte string. -/
def bytes (args : Bytes) (index : UInt64) : Except RevertData Bytes :=
  read (Abi.bytesAt args index)

/-- Argument `index` as an array of byte strings. -/
def bytesArray (args : Bytes) (index : UInt64) : Except RevertData (List Bytes) :=
  read (Abi.bytesArrayAt args index)

/-- Argument `index` as an array of words. -/
def words (args : Bytes) (index : UInt64) : Except RevertData (List Word) :=
  read (Abi.wordsAt args index)

end CallScript.Calldata
