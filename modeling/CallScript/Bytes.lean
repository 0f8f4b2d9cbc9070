/-!
# Byte strings

Byte strings and what the formats share: cutting, numerals in either byte order, UTF-8.
-/

namespace CallScript

/-- A byte string. -/
abbrev Bytes := List UInt8

namespace Bytes

/-- The bytes at positions `start` up to but not including `stop`, if they all exist. -/
def slice? (bytes : Bytes) (start stop : Nat) : Option Bytes :=
  if start ≤ stop ∧ stop ≤ bytes.length then some ((bytes.drop start).take (stop - start)) else none

/-- Consecutive pieces of `size` bytes, `count` of them. -/
def pieces (size : Nat) : Nat → Bytes → List Bytes
  | 0, _ => []
  | count + 1, bytes => bytes.take size :: pieces size count (bytes.drop size)

/-- Consecutive pieces of `size` bytes; the last one may be shorter. -/
def chunks (size : Nat) (bytes : Bytes) : List Bytes :=
  pieces size ((bytes.length + (size - 1)) / size) bytes

/-- The value of a numeral whose first byte is the least significant one. -/
def toNatLE : Bytes → Nat
  | [] => 0
  | b :: rest => b.toNat + 256 * toNatLE rest

/-- The numeral of `size` bytes, least significant byte first. -/
def ofNatLE : (size value : Nat) → Bytes
  | 0, _ => []
  | size + 1, value => UInt8.ofNat (value % 256) :: ofNatLE size (value / 256)

/-- The value of a numeral whose first byte is the most significant one. -/
def toNat (bytes : Bytes) : Nat :=
  toNatLE bytes.reverse

/-- The numeral of `size` bytes, most significant byte first. -/
def ofNat (size value : Nat) : Bytes :=
  (ofNatLE size value).reverse

/-- The UTF-8 form of a text. -/
def ofText (text : String) : Bytes :=
  text.toList.flatMap String.utf8EncodeChar

/-- The text whose UTF-8 form the bytes are. -/
def toText? (bytes : Bytes) : Option String :=
  String.fromUTF8? ⟨bytes.toArray⟩

/-- A text is determined by its UTF-8 form. -/
theorem ofText_injective {a b : String} (h : ofText a = ofText b) : a = b := by
  have hlist : String.ofList a.toList = String.ofList b.toList :=
    String.toByteArray_inj.mp (congrArg List.toByteArray h)
  simpa using hlist

@[simp] theorem length_ofNatLE (size value : Nat) : (ofNatLE size value).length = size := by
  induction size generalizing value with
  | zero => rfl
  | succ size ih => simp [ofNatLE, ih]

@[simp] theorem length_ofNat (size value : Nat) : (ofNat size value).length = size := by
  simp [ofNat]

end Bytes

end CallScript
