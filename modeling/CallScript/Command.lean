import CallScript.Call
import CallScript.Run.Error

/-!
# Commands

A command is one record of 32 bytes: a selector of four bytes, a flag byte, six argument bytes, an
output byte and a target of twenty bytes. Every record is a command. An index byte names a slot in
its low seven bits and marks a dynamic slot with its high bit; `0xfe` stands for the whole state and
`0xff` for nothing.
-/

namespace CallScript

/-- The encoded form of a command. -/
abbrev Record := FixedBytes 32

/-- What an argument byte refers to. -/
inductive Arg where
  /-- A slot of 32 bytes that goes into the head as it is. -/
  | static (slot : UInt8)
  /-- A slot of any length. -/
  | dynamic (slot : UInt8)
  /-- All slots, as an array of byte strings. -/
  | state
  deriving DecidableEq

namespace Arg

/-- None for the end mark. -/
def ofByte? (b : UInt8) : Option Arg :=
  if b = 0xff then none
  else if b = 0xfe then some .state
  else if b &&& 0x80 ≠ 0 then some (.dynamic (b &&& 0x7f))
  else some (.static b)

def toByte : Arg → UInt8
  | .static slot => slot &&& 0x7f
  | .dynamic slot => (slot &&& 0x7f) ||| 0x80
  | .state => 0xfe

/-- The one slot that is read. -/
def slot? : Arg → Option UInt8
  | .static slot => some slot
  | .dynamic slot => some slot
  | .state => none

def isStatic : Arg → Bool
  | .static _ => true
  | _ => false

/-- As it is written in assembly text. -/
def render : Arg → String
  | .static slot => s!"s{slot.toNat}"
  | .dynamic slot => s!"d{slot.toNat}"
  | .state => "state"

end Arg

/-- Where returned data goes. -/
inductive Output where
  | discard
  /-- An array of byte strings takes the place of all slots. -/
  | replaceState
  /-- The first word goes into a slot. -/
  | static (slot : UInt8)
  /-- A byte string goes into a slot. -/
  | dynamic (slot : UInt8)
  deriving DecidableEq

namespace Output

def ofByte (b : UInt8) : Output :=
  if b = 0xff then .discard
  else if b = 0xfe then .replaceState
  else if b &&& 0x80 ≠ 0 then .dynamic (b &&& 0x7f)
  else .static b

def toByte : Output → UInt8
  | .discard => 0xff
  | .replaceState => 0xfe
  | .static slot => slot &&& 0x7f
  | .dynamic slot => (slot &&& 0x7f) ||| 0x80

/-- As it is written in assembly text. -/
def render : Output → String
  | .discard => "_"
  | .replaceState => "state"
  | .static slot => s!"s{slot.toNat}"
  | .dynamic slot => s!"d{slot.toNat}"

end Output

/-- A flag of a command beside its kind. -/
inductive Flag where
  /-- Returned data goes into the slot as it is. -/
  | tuple
  /-- All slots are passed in place of the listed arguments. -/
  | stateInput
  /-- Dynamic slots hold a tail that is already laid out. -/
  | abiTail
  deriving DecidableEq

namespace Flag

def bit : Flag → UInt8
  | .abiTail => 0x20
  | .tuple => 0x40
  | .stateInput => 0x80

def name : Flag → String
  | .tuple => "tuple"
  | .stateInput => "stateinput"
  | .abiTail => "abitail"

/-- The flags in the order in which they are written. -/
def all : List Flag := [.tuple, .stateInput, .abiTail]

def ofName? (name : String) : Option Flag :=
  all.find? (·.name = name)

end Flag

/-- One call of a script, as its record spells it out. -/
structure Command where
  selector : Selector
  flags : UInt8
  argBytes : FixedBytes 6
  outputByte : UInt8
  target : Address
  deriving DecidableEq

namespace Command

/-- The most arguments of a command. -/
def maxArgs : Nat := 6

/-- The six argument bytes of a list of arguments; those beyond the sixth are dropped. -/
def packArgs (args : List Arg) : FixedBytes 6 where
  bytes := (args.map Arg.toByte ++ List.replicate maxArgs 0xff).take maxArgs
  length_eq := by simp [maxArgs]

/-- Puts a command together. -/
def make (kind : CallKind) (selector : Selector) (target : Address) (args : List Arg)
    (output : Output) (flags : UInt8) : Command where
  selector := selector
  flags := kind.toFlags ||| flags
  argBytes := packArgs args
  outputByte := output.toByte
  target := target

/-- The command that a record spells out. -/
def ofRecord (r : Record) : Command where
  selector := r.window 0 4 (by decide)
  flags := r.byteAt 4 (by decide)
  argBytes := r.window 5 6 (by decide)
  outputByte := r.byteAt 11 (by decide)
  target := r.window 12 20 (by decide)

/-- The record that spells a command out. -/
def toRecord (c : Command) : Record where
  bytes := c.selector.bytes ++ c.flags :: c.argBytes.bytes ++ c.outputByte :: c.target.bytes
  length_eq := by simp [c.selector.length_eq, c.argBytes.length_eq, c.target.length_eq]

/-- Reads the record at a position of a list. -/
def decode (index : Nat) (raw : Bytes) : Except RunError Command :=
  match FixedBytes.ofBytes? 32 raw with
  | some r => .ok (ofRecord r)
  | none => .error (.malformedCommand index raw.length)

/-- Reads records, the first of which has position `index`. -/
def decodeFrom (index : Nat) : List Bytes → Except RunError (List Command)
  | [] => .ok []
  | raw :: rest => do
    let command ← decode index raw
    let commands ← decodeFrom (index + 1) rest
    return command :: commands

/-- Reads a list of records. -/
def decodeAll (raws : List Bytes) : Except RunError (List Command) :=
  decodeFrom 0 raws

def kind (c : Command) : CallKind :=
  .ofFlags c.flags

def has (c : Command) (flag : Flag) : Bool :=
  c.flags &&& flag.bit ≠ 0

/-- Whether the call goes out without a selector. -/
def isFallback (c : Command) : Bool :=
  c.selector = Selector.fallback

/-- The arguments of some argument bytes, up to the first end mark. -/
def unpackArgs : Bytes → List Arg
  | [] => []
  | b :: rest =>
    match Arg.ofByte? b with
    | some arg => arg :: unpackArgs rest
    | none => []

/-- The arguments, up to the first end mark. -/
def args (c : Command) : List Arg :=
  unpackArgs c.argBytes.bytes

def output (c : Command) : Output :=
  .ofByte c.outputByte

/-- Kind, target and selector. -/
def describe (c : Command) : String :=
  s!"{c.kind.mnemonic} {c.target.toHex} {c.selector.toHex}"

end Command

end CallScript
