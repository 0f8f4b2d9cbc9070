import CallScript.Abi.Token

/-!
# Reading a call buffer

Positions and lengths are 64-bit numbers taken from the buffer itself, so nothing about them is
trusted: a sum that leaves 64 bits and a region that leaves the buffer are both a mismatch, and no
byte outside the buffer is ever asked for.
-/

namespace CallScript.Abi

/-- What a reader was looking for. -/
inductive Shape where
  | staticWord
  | dynamicValue
  | bytesArray
  | wordArray
  | dynamicTail
  | staticSlot
  | staticReturn
  deriving DecidableEq

def Shape.describe : Shape → String
  | .staticWord => "static word"
  | .dynamicValue => "dynamic value"
  | .bytesArray => "bytes array"
  | .wordArray => "word array"
  | .dynamicTail => "dynamic tail"
  | .staticSlot => "static slot"
  | .staticReturn => "static return"

/-- Data too short or misshapen for what it should hold. -/
structure Mismatch where
  shape : Shape
  /-- The length the data would have to have. -/
  needed : Nat
  available : Nat
  deriving DecidableEq

def Mismatch.message (m : Mismatch) : String :=
  s!"encoding mismatch in {m.shape.describe}: needed {m.needed} bytes, have {m.available}"

/-- The mismatch of a position that does not fit into 64 bits. -/
def Mismatch.unrepresentable (shape : Shape) (data : Bytes) : Mismatch :=
  ⟨shape, UInt64.size - 1, data.length⟩

/-- The sum, unless it takes more than 64 bits. -/
def checkedAdd (a b : UInt64) : Option UInt64 :=
  if a.toNat + b.toNat < UInt64.size then some (a + b) else none

/-- The product, unless it takes more than 64 bits. -/
def checkedMul (a b : UInt64) : Option UInt64 :=
  if a.toNat * b.toNat < UInt64.size then some (a * b) else none

/-- The value, or the mismatch of a position that does not fit into 64 bits. -/
def representable (shape : Shape) (data : Bytes) : Option UInt64 → Except Mismatch UInt64
  | some n => .ok n
  | none => .error (.unrepresentable shape data)

/-- The `length` bytes from position `start` on. -/
def region (shape : Shape) (data : Bytes) (start length : UInt64) : Except Mismatch Bytes := do
  let stop ← representable shape data (checkedAdd start length)
  match data.slice? start.toNat stop.toNat with
  | some bytes => return bytes
  | none => throw ⟨shape, stop.toNat, data.length⟩

/-- The word at position `start`. -/
def wordAtOffset (shape : Shape) (data : Bytes) (start : UInt64) : Except Mismatch Word := do
  let bytes ← region shape data start 32
  match Word.ofBytes? bytes with
  | some w => return w
  | none => throw ⟨shape, 32, bytes.length⟩

/-- The word at position `start`, which has to hold a length or a position. -/
def positionAt (shape : Shape) (data : Bytes) (start : UInt64) : Except Mismatch UInt64 := do
  let w ← wordAtOffset shape data start
  representable shape data w.toUInt64?

/-- The byte string whose length stands at position `start`. -/
def bytesAtOffset (shape : Shape) (data : Bytes) (start : UInt64) : Except Mismatch Bytes := do
  let length ← positionAt shape data start
  region shape data (start + 32) length

/-- Head word `index`. -/
def wordAt (data : Bytes) (index : UInt64) : Except Mismatch Word :=
  wordAtOffset .staticWord data (index * 32)

/-- The byte string that head word `index` points to. -/
def bytesAt (data : Bytes) (index : UInt64) : Except Mismatch Bytes := do
  let start ← positionAt .dynamicValue data (index * 32)
  bytesAtOffset .dynamicValue data start

/-- The elements whose positions, counted from `base`, stand in `table` from entry `i` on. -/
def elementsFrom (data : Bytes) (base : UInt64) (table : Bytes) :
    (count : Nat) → (i : UInt64) → Except Mismatch (List Bytes)
  | 0, _ => .ok []
  | count + 1, i => do
    let relative ← positionAt .bytesArray table (i * 32)
    let start ← representable .bytesArray data (checkedAdd base relative)
    let item ← bytesAtOffset .bytesArray data start
    let items ← elementsFrom data base table count (i + 1)
    return item :: items

/-- The array of byte strings that head word `index` points to. -/
def bytesArrayAt (data : Bytes) (index : UInt64) : Except Mismatch (List Bytes) := do
  let start ← positionAt .bytesArray data (index * 32)
  let count ← positionAt .bytesArray data start
  let base := start + 32
  let size ← representable .bytesArray data (checkedMul count 32)
  let table ← region .bytesArray data base size
  elementsFrom data base table count.toNat 0

/-- The array of words that head word `index` points to. -/
def wordsAt (data : Bytes) (index : UInt64) : Except Mismatch (List Word) := do
  let start ← positionAt .wordArray data (index * 32)
  let count ← positionAt .wordArray data start
  let size ← representable .wordArray data (checkedMul count 32)
  let body ← region .wordArray data (start + 32) size
  return (body.chunks wordSize).filterMap Word.ofBytes?

/-- The tail of the only value, from its length or count to the end of the buffer. -/
def tailOf (data : Bytes) : Except Mismatch Bytes := do
  let start ← positionAt .dynamicTail data 0
  let _ ← region .dynamicTail data start 32
  return data.drop start.toNat

end CallScript.Abi
