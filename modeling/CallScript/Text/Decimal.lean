/-!
# Decimal numbers in text

A number is a non-empty run of the digits `0` to `9`; one sign `+` may stand in front of it.
-/

namespace CallScript.Text

/-- Whether a character is one of the ten decimal digits. -/
def isDigit (c : Char) : Bool :=
  '0' ≤ c && c ≤ '9'

/-- The value of a decimal digit. -/
def digitValue (c : Char) : Nat :=
  c.toNat - '0'.toNat

/-- The text without one sign `+` in front. -/
def unsign : List Char → List Char
  | '+' :: rest => rest
  | text => text

/-- The value of a run of digits. -/
def decimalValue (digits : List Char) : Nat :=
  digits.foldl (fun acc c => acc * 10 + digitValue c) 0

/-- Reads a number of at most `bits` bits. -/
def decimal? (bits : Nat) (text : List Char) : Option Nat :=
  let digits := unsign text
  if digits.isEmpty || !digits.all isDigit then none
  else if decimalValue digits < 1 <<< bits then some (decimalValue digits)
  else none

end CallScript.Text
