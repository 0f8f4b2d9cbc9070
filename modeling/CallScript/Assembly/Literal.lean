import CallScript.Assembly.Operand
import CallScript.Word.Arithmetic

/-!
# Literals of slots

A slot is given by its kind and a literal: an integer, a word, an address, a truth value, a quoted
text or bytes.
-/

namespace CallScript.Assembly

/-- Appends a decimal digit to a word, unless the result takes more than 256 bits. -/
def pushDigit (acc : Word) (c : Char) : Option Word := do
  let shifted ← acc.mul? (Word.ofNat 10)
  shifted.add? (Word.ofNat (Text.digitValue c))

/-- Reads an integer in decimal digits, or in hexadecimal ones behind `0x`. -/
def parseInteger (text : String) : Except Reason Word :=
  if isMarked text then
    match Hex.decode text with
    | none => .error (.invalidHexInteger text)
    | some bytes =>
      match Word.ofBytes? (List.replicate (32 - bytes.length) 0 ++ bytes) with
      | some w => .ok w
      | none => .error (.integerTooLarge text)
  else if text.toList.isEmpty || !text.toList.all Text.isDigit then .error (.invalidInteger text)
  else
    match text.toList.foldlM pushDigit Word.zero with
    | some w => .ok w
    | none => .error (.integerTooLarge text)

/-- The bytes of a text between quotes, whose escapes begin with a backslash. -/
def unescape : List Char → Except Reason Bytes
  | [] => .ok []
  | '\\' :: [] => .error .danglingEscape
  | '\\' :: 'n' :: rest => (0x0a :: ·) <$> unescape rest
  | '\\' :: 't' :: rest => (0x09 :: ·) <$> unescape rest
  | '\\' :: 'r' :: rest => (0x0d :: ·) <$> unescape rest
  | '\\' :: '0' :: rest => (0x00 :: ·) <$> unescape rest
  | '\\' :: '\\' :: rest => (0x5c :: ·) <$> unescape rest
  | '\\' :: '"' :: rest => (0x22 :: ·) <$> unescape rest
  | '\\' :: 'x' :: a :: b :: rest =>
    match Hex.byte? [a, b] with
    | some byte => (byte :: ·) <$> unescape rest
    | none => .error (.invalidEscape (String.ofList [a, b]))
  | '\\' :: 'x' :: digits =>
    match Hex.byte? digits with
    | some byte => .ok [byte]
    | none => .error (.invalidEscape (String.ofList digits))
  | '\\' :: c :: _ => .error (.unknownEscape c)
  | c :: rest => (String.utf8EncodeChar c ++ ·) <$> unescape rest

/-- The text between a quote at the beginning and another one at the end. -/
def unquote? : List Char → Option (List Char)
  | '"' :: rest => if rest.getLast? = some '"' then some rest.dropLast else none
  | _ => none

theorem unquote?_eq_some {text body : List Char} : unquote? text = some body ↔ text = '"' :: (body ++ ['"']) := by
  constructor
  · intro h
    unfold unquote? at h
    split at h
    · next rest =>
      split at h
      · next hlast =>
        cases h
        obtain ⟨front, rfl⟩ := List.getLast?_eq_some_iff.mp hlast
        rw [List.dropLast_concat]
      · cases h
    · cases h
  · rintro rfl
    simp [unquote?]

/-- Reads a text in double quotes. -/
def parseString (text : String) : Except Reason Bytes :=
  match unquote? text.toList with
  | some inner => unescape inner
  | none => .error (.expectedString text)

/-- Reads hexadecimal digits. -/
def parseHex (text : String) : Except Reason Bytes :=
  match Hex.decode text with
  | some bytes => .ok bytes
  | none => .error (.invalidHex text)

/-- Reads the literal of a slot of some kind. -/
def parseLiteral (aliases : Aliases) (kind literal : String) : Except Reason Bytes :=
  match kind with
  | "u256" => (·.bytes) <$> parseInteger literal
  | "word" => do
    let bytes ← parseHex literal
    if bytes.length = 32 then return bytes else throw (.wordLength bytes.length)
  | "addr" => (fun address => (Word.ofAddress address).bytes) <$> parseTarget aliases literal
  | "bool" =>
    match literal with
    | "true" => .ok (Word.ofBool true).bytes
    | "false" => .ok (Word.ofBool false).bytes
    | _ => .error (.expectedBool literal)
  | "str" => parseString literal
  | "bytes" => parseHex literal
  | _ => .error (.unknownSlotKind kind)

end CallScript.Assembly
