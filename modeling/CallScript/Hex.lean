import CallScript.FixedBytes
import CallScript.Text.Decimal

/-!
# Hexadecimal text

Bytes are written as two lower-case digits each. Reading takes either case and one optional mark
`0x` or `0X` in front.
-/

namespace CallScript.Hex

/-- The value of a hexadecimal digit. -/
def digit? (c : Char) : Option Nat :=
  if '0' ≤ c ∧ c ≤ '9' then some (c.toNat - '0'.toNat)
  else if 'a' ≤ c ∧ c ≤ 'f' then some (c.toNat - 'a'.toNat + 10)
  else if 'A' ≤ c ∧ c ≤ 'F' then some (c.toNat - 'A'.toNat + 10)
  else none

/-- The two digits of a byte. -/
def digits (b : UInt8) : List Char :=
  [Nat.digitChar (b.toNat / 16), Nat.digitChar (b.toNat % 16)]

/-- The digits of a byte string, without a mark. -/
def encode (bytes : Bytes) : String :=
  String.ofList (bytes.flatMap digits)

/-- The digits of a byte string after the mark `0x`. -/
def render (bytes : Bytes) : String :=
  "0x" ++ encode bytes

/-- Reads digits in pairs; none if a digit is left over or a character is no digit. -/
def decodeDigits : List Char → Option Bytes
  | [] => some []
  | [_] => none
  | hi :: lo :: rest => do
    let hi ← digit? hi
    let lo ← digit? lo
    let rest ← decodeDigits rest
    return UInt8.ofNat (hi * 16 + lo) :: rest

/-- The text without the mark that may stand in front of the digits. -/
def unmark : List Char → List Char
  | '0' :: 'x' :: rest => rest
  | '0' :: 'X' :: rest => rest
  | text => text

/-- Reads digits with an optional mark. -/
def decode (text : String) : Option Bytes :=
  decodeDigits (unmark text.toList)

/-- Reads a number in hexadecimal digits, one sign `+` in front allowed, as a byte. -/
def byte? (text : List Char) : Option UInt8 :=
  let digits := Text.unsign text
  if digits.isEmpty then none
  else (digits.foldlM (fun acc c => (digit? c).map (acc * 16 + ·)) 0).map UInt8.ofNat

end CallScript.Hex

namespace CallScript.FixedBytes

/-- The digits after the mark `0x`. -/
def toHex {n : Nat} (b : FixedBytes n) : String :=
  Hex.render b.bytes

end CallScript.FixedBytes
