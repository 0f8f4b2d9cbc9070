import CallScript.Word.Basic

/-!
# Addresses as text

An address is written as 40 hexadecimal digits, with or without a mark in front.
-/

namespace CallScript.Address

/-- Why a text is no address. -/
inductive ParseError where
  | notHex (text : String)
  | wrongLength (text : String)
  deriving DecidableEq

def ParseError.message : ParseError → String
  | .notHex text => s!"invalid hex address '{text}'"
  | .wrongLength text => s!"address '{text}' must be 20 bytes"

/-- Reads an address. -/
def parse (text : String) : Except ParseError Address :=
  match Hex.decode text with
  | none => .error (.notHex text)
  | some bytes =>
    match FixedBytes.ofBytes? 20 bytes with
    | none => .error (.wrongLength text)
    | some address => .ok address

/-- The address whose last byte is `n` and whose other bytes are zero. -/
def ofLowByte (n : UInt8) : Address :=
  FixedBytes.ofNat 20 n.toNat

end CallScript.Address
