import CallScript.Assembly.Aliases
import CallScript.Assembly.Error
import CallScript.Text.Blank
import CallScript.Text.Decimal

/-!
# Operands of a call

References to slots, selectors and targets as they are written in assembly text.
-/

namespace CallScript.Assembly

/-- Reads the number of a slot. -/
def parseSlotIndex (digits : List Char) : Except Reason UInt8 :=
  match Text.decimal? 64 digits with
  | none => .error (.invalidSlotIndex (String.ofList digits))
  | some index => if index < maxSlots then .ok (UInt8.ofNat index) else .error (.slotIndexTooLarge index)

/-- Reads `sN`, `dN` or `state`. -/
def parseArg (text : String) : Except Reason Arg :=
  if text = "state" then .ok .state
  else
    match text.toList with
    | 's' :: digits => Arg.static <$> parseSlotIndex digits
    | 'd' :: digits => Arg.dynamic <$> parseSlotIndex digits
    | _ => .error (.expectedArg text)

/-- Reads `sN`, `dN`, `state` or `_`. -/
def parseOutput (text : String) : Except Reason Output :=
  if text = "_" then .ok .discard
  else if text = "state" then .ok .replaceState
  else
    match parseArg text with
    | .ok (.static slot) => .ok (.static slot)
    | .ok (.dynamic slot) => .ok (.dynamic slot)
    | _ => .error (.expectedOutput text)

/-- Whether a text begins with the mark `0x`. -/
def isMarked (text : String) : Bool :=
  match text.toList with
  | '0' :: 'x' :: _ => true
  | _ => false

/-- Whether a text without blanks is a name followed by a list in parentheses. -/
def isSignature (text : List Char) : Bool :=
  text.head? ≠ some '(' && text.contains '(' && text.getLast? = some ')'

/-- Reads `fallback`, a selector in hexadecimal, or a signature. -/
def parseSelector (text : String) : Except Reason Selector :=
  if text = "fallback" then .ok .fallback
  else if isMarked text then
    match Hex.decode text with
    | none => .error (.invalidSelector text)
    | some bytes =>
      match FixedBytes.ofBytes? 4 bytes with
      | none => .error (.selectorLength text)
      | some selector => .ok selector
  else
    let signature := text.toList.filter (!Text.isBlank ·)
    if isSignature signature then .ok (.ofSignature (String.ofList signature))
    else .error (.expectedSignature text)

/-- Reads an address. -/
def parseAddress (text : String) : Except Reason Address :=
  match Address.parse text with
  | .ok address => .ok address
  | .error e => .error (.badAddress e)

/-- Reads an address or an alias behind `@`. -/
def parseTarget (aliases : Aliases) (text : String) : Except Reason Address :=
  match text.toList with
  | '@' :: name =>
    match aliases.resolve? (String.ofList name) with
    | some address => .ok address
    | none => .error (.unknownAlias (String.ofList name))
  | _ => parseAddress text

end CallScript.Assembly
