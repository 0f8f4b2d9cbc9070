import CallScript.Hex
import CallScript.Keccak

/-!
# Words and addresses

A word is 32 bytes; an address is 20 bytes and travels as the low bytes of a word. A word that counts
something is read as a numeral with its most significant byte first.
-/

namespace CallScript

/-- The unit of static slots, of call data and of storage. -/
abbrev Word := FixedBytes 32

/-- Names an account. -/
abbrev Address := FixedBytes 20

/-- Names a function of a contract. -/
abbrev Selector := FixedBytes 4

namespace Word

def zero : Word := FixedBytes.zero 32

/-- The word of a number below `2 ^ 256`. -/
def ofNat (value : Nat) : Word :=
  FixedBytes.ofNat 32 value

def ofBool (b : Bool) : Word :=
  ofNat b.toNat

/-- The bytes themselves, if there are 32. -/
def ofBytes? (bytes : Bytes) : Option Word :=
  FixedBytes.ofBytes? 32 bytes

/-- The address after twelve zero bytes. -/
def ofAddress (address : Address) : Word :=
  (FixedBytes.zero 12).append address

/-- The low 20 bytes. -/
def toAddress (w : Word) : Address :=
  w.last 20 (by decide)

/-- The value, if it takes at most `bits` bits. -/
def toNat? (bits : Nat) (w : Word) : Option Nat :=
  if w.toNat < 1 <<< bits then some w.toNat else none

/-- The value, if it is a length or a position. -/
def toUInt64? (w : Word) : Option UInt64 :=
  (w.toNat? 64).map UInt64.ofNat

/-- The Keccak-256 digest of several byte strings, one after the other. -/
def keccak (parts : List Bytes) : Word :=
  Keccak.digest parts.flatten

end Word

namespace Selector

/-- Calls the target without a selector. -/
def fallback : Selector := FixedBytes.zero 4

/-- The first bytes of the digest of a signature such as `add(uint256,uint256)`. -/
def ofSignature (signature : String) : Selector :=
  (Word.keccak [Bytes.ofText signature]).first 4 (by decide)

end Selector

end CallScript
