import CallScript.Abi.Reader

/-!
# Failure payloads

A call that fails hands back bytes. By convention they are the selector of `Error(string)` followed
by one encoded text; any other payload is just shown in hexadecimal.
-/

namespace CallScript

/-- The bytes that a failing call hands back. -/
structure RevertData where
  payload : Bytes
  deriving DecidableEq

namespace RevertData

/-- The selector of `Error(string)`. -/
def errorSelector : Bytes := [0x08, 0xc3, 0x79, 0xa0]

/-- The payload of a reason. -/
def reason (text : String) : RevertData :=
  ⟨errorSelector ++ Abi.encode [.bytes (Bytes.ofText text)]⟩

/-- The reason that a payload holds. -/
def reason? (data : RevertData) : Option String :=
  if data.payload.take 4 = errorSelector then
    match Abi.bytesAt (data.payload.drop 4) 0 with
    | .ok text => text.toText?
    | .error _ => none
  else none

/-- The reason in quotes, or else the bytes. -/
def describe (data : RevertData) : String :=
  match data.reason? with
  | some text => "\"" ++ text ++ "\""
  | none => if data.payload.isEmpty then "<empty>" else Hex.render data.payload

end RevertData

end CallScript
