import CallScript.FixedBytes

/-!
# The binary codec

Integers are written least significant byte first, byte strings of a fixed length as they are, and
lists as a count of eight bytes followed by their elements. A count that is larger than the number of
bytes left is refused before any element is read.
-/

namespace CallScript

/-- Why bytes could not be decoded. -/
inductive CodecError where
  /-- The input ended inside a value. -/
  | unexpectedEnd
  /-- A count exceeds the bytes that are left. -/
  | lengthOverflow
  /-- Bytes remain after the value. -/
  | trailingBytes
  deriving DecidableEq

def CodecError.message : CodecError → String
  | .unexpectedEnd => "unexpected end of input"
  | .lengthOverflow => "length prefix overflow"
  | .trailingBytes => "trailing bytes"

/-- A binary form: how a value is written, and how one is read off the front of some bytes. -/
class Codec (α : Type) where
  encode : α → Bytes
  decode : Bytes → Except CodecError (α × Bytes)

namespace Codec

/-- Splits `n` bytes off the front. -/
def take (n : Nat) (input : Bytes) : Except CodecError (Bytes × Bytes) :=
  if input.length < n then .error .unexpectedEnd else .ok (input.take n, input.drop n)

instance : Codec UInt8 where
  encode b := [b]
  decode
    | [] => .error .unexpectedEnd
    | b :: rest => .ok (b, rest)

instance : Codec UInt64 where
  encode n := Bytes.ofNatLE 8 n.toNat
  decode input := do
    let (bytes, rest) ← take 8 input
    return (UInt64.ofNat bytes.toNatLE, rest)

instance (n : Nat) : Codec (FixedBytes n) where
  encode b := b.bytes
  decode input :=
    if h : n ≤ input.length then
      .ok (⟨input.take n, by rw [List.length_take]; omega⟩, input.drop n)
    else .error .unexpectedEnd

/-- Reads `count` values one after the other. -/
def decodeMany {α : Type} [Codec α] : Nat → Bytes → Except CodecError (List α × Bytes)
  | 0, input => .ok ([], input)
  | count + 1, input => do
    let (item, rest) ← Codec.decode input
    let (items, rest) ← decodeMany count rest
    return (item :: items, rest)

instance {α : Type} [Codec α] : Codec (List α) where
  encode items := Codec.encode (UInt64.ofNat items.length) ++ items.flatMap Codec.encode
  decode input := do
    let ((count : UInt64), rest) ← Codec.decode input
    if count.toNat > rest.length then throw .lengthOverflow
    decodeMany count.toNat rest

/-- Reads a value that takes up all of the input. -/
def decodeAll {α : Type} [Codec α] (input : Bytes) : Except CodecError α := do
  let (value, rest) ← Codec.decode input
  if rest.isEmpty then return value else throw .trailingBytes

end Codec

end CallScript
