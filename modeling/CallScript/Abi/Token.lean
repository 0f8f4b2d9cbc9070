import CallScript.Word.Basic

/-!
# Values in a call buffer

A call buffer is a head of one word per value, followed by a tail. A static value stands in the head
itself. A dynamic value puts into the head the position at which its own part of the tail begins,
counted from the start of the head.
-/

namespace CallScript.Abi

/-- Bytes in a word. -/
def wordSize : Nat := 32

/-- The length rounded up to whole words. -/
def paddedLength (length : Nat) : Nat :=
  (length + (wordSize - 1)) / wordSize * wordSize

/-- A value to be laid out in a call buffer. -/
inductive Token where
  /-- A static word. -/
  | word (w : Word)
  /-- A byte string, behind its length. -/
  | bytes (content : Bytes)
  /-- An array of byte strings, behind their count. -/
  | bytesArray (items : List Bytes)
  /-- An array of words, behind their count. -/
  | words (items : List Word)
  /-- A part of the tail that is already laid out; it is only padded. -/
  | tail (encoded : Bytes)
  deriving DecidableEq

/-- Appends the content, and zeros up to a whole number of words. -/
def appendPadded (buffer content : Bytes) : Bytes :=
  buffer ++ content ++ List.replicate (paddedLength content.length - content.length) 0

/-- Appends a byte string: its length, then its padded content. -/
def appendBytes (buffer content : Bytes) : Bytes :=
  appendPadded (buffer ++ (Word.ofNat content.length).bytes) content

/-! ## Head and tail -/

/-- A buffer in the making. -/
structure Draft where
  head : Bytes := []
  tail : Bytes := []

namespace Draft

/-- Adds a static word. -/
def inline (d : Draft) (w : Word) : Draft :=
  { d with head := d.head ++ w.bytes }

/-- Adds a dynamic value, which is appended to the tail. Its position counts the whole head, that is
`headLength` bytes. -/
def defer (headLength : Nat) (append : Bytes → Bytes) (d : Draft) : Draft where
  head := d.head ++ (Word.ofNat (headLength + d.tail.length)).bytes
  tail := append d.tail

end Draft

/-- Appends the head and the tail of a list of values, where `add` adds one of them. -/
def layoutAfter {α : Type} (add : (headLength : Nat) → Draft → α → Draft) (front : Bytes)
    (values : List α) : Bytes :=
  let d := values.foldl (add (values.length * wordSize)) {}
  front ++ d.head ++ d.tail

/-- Appends an array of byte strings: their count, then a head and a tail of its own. -/
def appendArray (buffer : Bytes) (items : List Bytes) : Bytes :=
  layoutAfter (fun headLength d item => d.defer headLength (appendBytes · item))
    (buffer ++ (Word.ofNat items.length).bytes) items

/-- Adds a value: a static word stands in the head, all else in the tail. -/
def Token.addTo (headLength : Nat) (d : Draft) : Token → Draft
  | .word w => d.inline w
  | .bytes content => d.defer headLength (appendBytes · content)
  | .bytesArray items => d.defer headLength (appendArray · items)
  | .words items =>
    d.defer headLength fun tail =>
      tail ++ (Word.ofNat items.length).bytes ++ items.flatMap (·.bytes)
  | .tail encoded => d.defer headLength (appendPadded · encoded)

/-- Appends the buffer of a list of values to bytes that are already there; positions do not count
those. -/
def encodeAfter (front : Bytes) (tokens : List Token) : Bytes :=
  layoutAfter Token.addTo front tokens

/-- The buffer of a list of values. -/
def encode (tokens : List Token) : Bytes :=
  encodeAfter [] tokens

end CallScript.Abi
