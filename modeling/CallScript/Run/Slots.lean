import CallScript.Run.Error

/-!
# Slots

The state of a run is a list of byte strings. A slot is static or dynamic only in how a command
refers to it. The list can grow at its end and be replaced, but never beyond `maxSlots`.
-/

namespace CallScript

/-- The state of a run. -/
structure Slots where
  values : List Bytes
  length_le : values.length ≤ maxSlots
  deriving DecidableEq

namespace Slots

/-- The values themselves, unless there are too many. -/
def ofList (values : List Bytes) : Except RunError Slots :=
  if h : values.length ≤ maxSlots then .ok ⟨values, h⟩ else .error (.tooManySlots values.length)

def size (s : Slots) : Nat := s.values.length

/-- The bytes of a slot. -/
def get (s : Slots) (slot : UInt8) : Except RunError Bytes :=
  match s.values[slot.toNat]? with
  | some bytes => .ok bytes
  | none => .error (.slotOutOfRange slot s.size)

/-- The word in a slot, which has to have exactly 32 bytes. -/
def word (s : Slots) (slot : UInt8) : Except RunError Word := do
  let bytes ← s.get slot
  match Word.ofBytes? bytes with
  | some w => return w
  | none => throw (.mismatch ⟨.staticSlot, 32, bytes.length⟩)

/-- Writes a slot; the slot after the last one is added, if there is room for it. -/
def set (s : Slots) (slot : UInt8) (value : Bytes) : Except RunError Unit × Slots :=
  if slot.toNat < s.size then
    (.ok (), ⟨s.values.set slot.toNat value, by simpa using s.length_le⟩)
  else if slot.toNat = s.size then
    if h : s.size + 1 ≤ maxSlots then (.ok (), ⟨s.values ++ [value], by simpa [size] using h⟩)
    else (.error (.tooManySlots (s.size + 1)), s)
  else (.error (.slotOutOfRange slot s.size), s)

/-- Takes other values in place of all slots, unless there are too many. -/
def replace (s : Slots) (values : List Bytes) : Except RunError Unit × Slots :=
  if h : values.length ≤ maxSlots then (.ok (), ⟨values, h⟩)
  else (.error (.tooManySlots values.length), s)

/-- Writes what was read, if it could be read. -/
def put {α : Type} (s : Slots) (write : Slots → α → Except RunError Unit × Slots) :
    Except RunError α → Except RunError Unit × Slots
  | .ok value => write s value
  | .error e => (.error e, s)

end Slots

end CallScript
