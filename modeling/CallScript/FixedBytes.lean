import CallScript.Bytes
import CallScript.SortedMap

/-!
# Byte strings of a fixed length

Words, addresses, selectors and command records are byte strings of a known length. They are ordered
lexicographically, and a numeral is read with its most significant byte first.
-/

namespace CallScript

/-- A byte string of length `n`. -/
@[ext]
structure FixedBytes (n : Nat) where
  bytes : Bytes
  length_eq : bytes.length = n
  deriving DecidableEq

namespace FixedBytes

variable {n : Nat}

instance : LT (FixedBytes n) := ⟨fun a b => a.bytes < b.bytes⟩

instance : DecidableLT (FixedBytes n) := fun a b => inferInstanceAs (Decidable (a.bytes < b.bytes))

instance : KeyOrder (FixedBytes n) where
  Before a b := a < b
  decidable _ _ := inferInstance
  irrefl a := List.lt_irrefl a.bytes
  trans h h' := List.lt_trans (α := UInt8) h h'
  trichotomous h h' :=
    FixedBytes.ext ((inferInstance : Std.Trichotomous (α := Bytes) (· < ·)).trichotomous _ _ h h')

/-- Lexicographic comparison. -/
def compare (a b : FixedBytes n) : Ordering :=
  if a < b then .lt else if a = b then .eq else .gt

/-- The bytes themselves, if there are exactly `n`. -/
def ofBytes? (n : Nat) (bytes : Bytes) : Option (FixedBytes n) :=
  if h : bytes.length = n then some ⟨bytes, h⟩ else none

/-- All bytes zero. -/
def zero (n : Nat) : FixedBytes n :=
  ⟨List.replicate n 0, List.length_replicate⟩

instance : Inhabited (FixedBytes n) := ⟨zero n⟩

/-- The numeral of a value, which is taken modulo `256 ^ n`. -/
def ofNat (n value : Nat) : FixedBytes n :=
  ⟨Bytes.ofNat n value, Bytes.length_ofNat n value⟩

/-- The value as a numeral. -/
def toNat (b : FixedBytes n) : Nat :=
  b.bytes.toNat

/-- Whether every byte is zero. -/
def isZero (b : FixedBytes n) : Bool :=
  b.bytes.all (· == 0)

/-- The first `m` bytes. -/
def first (b : FixedBytes n) (m : Nat) (h : m ≤ n) : FixedBytes m :=
  ⟨b.bytes.take m, by rw [List.length_take, b.length_eq]; omega⟩

/-- The last `m` bytes. -/
def last (b : FixedBytes n) (m : Nat) (h : m ≤ n) : FixedBytes m :=
  ⟨b.bytes.drop (n - m), by rw [List.length_drop, b.length_eq]; omega⟩

/-- The `m` bytes from position `start` on. -/
def window (b : FixedBytes n) (start m : Nat) (h : start + m ≤ n) : FixedBytes m :=
  ⟨(b.bytes.drop start).take m, by rw [List.length_take, List.length_drop, b.length_eq]; omega⟩

/-- The byte at a position. -/
def byteAt (b : FixedBytes n) (i : Nat) (h : i < n) : UInt8 :=
  b.bytes.get ⟨i, by rw [b.length_eq]; exact h⟩

/-- One string after the other. -/
def append {m : Nat} (a : FixedBytes n) (b : FixedBytes m) : FixedBytes (n + m) :=
  ⟨a.bytes ++ b.bytes, by rw [List.length_append, a.length_eq, b.length_eq]⟩

end FixedBytes

end CallScript
