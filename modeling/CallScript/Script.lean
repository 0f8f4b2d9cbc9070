import CallScript.Codec
import CallScript.Command

/-!
# Scripts

A script is a list of command records and the state they run on. Its binary form begins with a magic
and a version, followed by both lists.
-/

namespace CallScript

/-- Commands and their initial state. -/
structure Script where
  commands : List Record := []
  state : List Bytes := []
  deriving DecidableEq

/-- Why bytes are no script. -/
inductive ScriptError where
  | truncated
  | badMagic
  | unsupportedVersion
  | codec (error : CodecError)
  /-- Neither the binary form nor text. -/
  | notText
  deriving DecidableEq

namespace ScriptError

def reason : ScriptError → String
  | .truncated => "truncated"
  | .badMagic => "bad magic"
  | .unsupportedVersion => "unsupported version"
  | .codec error => error.message
  | .notText => "script is neither binary nor UTF-8 text"

def message (e : ScriptError) : String :=
  s!"decoding error: {e.reason}"

/-- An error of the codec as an error of the script. -/
def ofCodec {α : Type} : Except CodecError α → Except ScriptError α
  | .ok a => .ok a
  | .error e => .error (.codec e)

end ScriptError

namespace Script

/-- What the binary form begins with. -/
def magic : Bytes := Bytes.ofText "OPCHN"

/-- The version behind the magic. -/
def version : FixedBytes 3 := ⟨[1, 0, 0], rfl⟩

/-- The binary form. -/
def toBytes (s : Script) : Bytes :=
  magic ++ version.bytes ++ Codec.encode s.commands ++ Codec.encode s.state

/-- Whether bytes begin like the binary form. -/
def isBinary (data : Bytes) : Bool :=
  magic.isPrefixOf data

/-- Reads the binary form. -/
def ofBytes (data : Bytes) : Except ScriptError Script := do
  if data.length < magic.length then throw .truncated
  if ¬ isBinary data then throw .badMagic
  let ((found : FixedBytes 3), rest) ← ScriptError.ofCodec (Codec.decode (data.drop magic.length))
  if found ≠ version then throw .unsupportedVersion
  let (commands, rest) ← ScriptError.ofCodec (Codec.decode rest)
  let (state, rest) ← ScriptError.ofCodec (Codec.decode rest)
  if ¬ rest.isEmpty then throw (.codec .trailingBytes)
  return { commands, state }

/-- The commands that the records spell out. -/
def decoded (s : Script) : List Command :=
  s.commands.map Command.ofRecord

end Script

end CallScript
