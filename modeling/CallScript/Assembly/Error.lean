import CallScript.Address
import CallScript.Command

/-!
# Errors of the assembler
-/

namespace CallScript.Assembly

/-- What is wrong with a line. -/
inductive Reason where
  | unexpectedClose
  | unterminatedString
  | unbalancedOpen
  | invalidSlotIndex (digits : String)
  | slotIndexTooLarge (index : Nat)
  | expectedArg (text : String)
  | expectedOutput (text : String)
  | invalidSelector (text : String)
  | selectorLength (text : String)
  | expectedSignature (text : String)
  | unknownAlias (name : String)
  | badAddress (error : Address.ParseError)
  | invalidHexInteger (text : String)
  | invalidInteger (text : String)
  | integerTooLarge (text : String)
  | expectedString (text : String)
  | invalidEscape (digits : String)
  | unknownEscape (c : Char)
  | danglingEscape
  | invalidHex (text : String)
  | wordLength (length : Nat)
  | expectedBool (text : String)
  | unknownSlotKind (kind : String)
  | missingTarget
  | missingSignature
  | outputTwice
  | missingOutput
  | unknownFlag (name : String)
  | argAfterOutput
  | tooManyArgs
  | valueSlotNeeded
  | slotForm
  | tooManySlots
  | aliasForm
  | aliasTaken (name : String)
  | unknownDirective (name : String)
  deriving DecidableEq

def Reason.message : Reason → String
  | .unexpectedClose => "unexpected ')'"
  | .unterminatedString => "unterminated string literal (missing closing quote)"
  | .unbalancedOpen => "unbalanced '(' in signature"
  | .invalidSlotIndex digits => s!"invalid slot index '{digits}'"
  | .slotIndexTooLarge index => s!"slot index {index} exceeds the maximum of {maxSlots - 1}"
  | .expectedArg text => s!"expected sN, dN or state, got '{text}'"
  | .expectedOutput text => s!"expected sN, dN, state or _, got '{text}'"
  | .invalidSelector text => s!"invalid selector '{text}'"
  | .selectorLength text => s!"selector '{text}' must be 4 bytes"
  | .expectedSignature text => s!"expected signature like 'name(type,...)', got '{text}'"
  | .unknownAlias name => s!"unknown alias '@{name}'"
  | .badAddress error => error.message
  | .invalidHexInteger text => s!"invalid hex integer '{text}'"
  | .invalidInteger text => s!"invalid integer '{text}'"
  | .integerTooLarge text => s!"integer '{text}' does not fit in 256 bits"
  | .expectedString text => s!"expected a double-quoted string, got {text}"
  | .invalidEscape digits => s!"invalid escape '\\x{digits}'"
  | .unknownEscape c => s!"unknown escape '\\{c}'"
  | .danglingEscape => "dangling '\\' at end of string"
  | .invalidHex text => s!"invalid hex '{text}'"
  | .wordLength length => s!"word literal must be 32 bytes, got {length}"
  | .expectedBool text => s!"expected true or false, got '{text}'"
  | .unknownSlotKind kind =>
    s!"unknown slot kind '{kind}' (expected u256, word, addr, bool, str or bytes)"
  | .missingTarget => "missing call target"
  | .missingSignature => "missing function signature"
  | .outputTwice => "output given twice"
  | .missingOutput => "expected an output after '->'"
  | .unknownFlag name => s!"unknown flag '+{name}'"
  | .argAfterOutput => "arguments must come before '->'"
  | .tooManyArgs => s!"at most {Command.maxArgs} arguments"
  | .valueSlotNeeded => "valuecall needs a static value slot as its first argument"
  | .slotForm => "expected 'slot <kind> <literal>'"
  | .tooManySlots => s!"more than {maxSlots} slots"
  | .aliasForm => "expected 'alias <name> <0xaddress>'"
  | .aliasTaken name => s!"alias '{name}' is already defined"
  | .unknownDirective name => s!"unknown directive '{name}'"

/-- A reason at a column of a line. Columns count bytes, from 1. -/
structure Fault where
  column : Nat
  reason : Reason
  deriving DecidableEq

/-- A fault in a line of a source. Lines count from 1. -/
structure Error where
  line : Nat
  column : Nat
  reason : Reason
  deriving DecidableEq

def Error.message (e : Error) : String :=
  s!"line {e.line}:{e.column}: {e.reason.message}"

/-- A result, or its reason at a column. -/
def located {α : Type} (column : Nat) : Except Reason α → Except Fault α
  | .ok a => .ok a
  | .error reason => .error ⟨column, reason⟩

end CallScript.Assembly
