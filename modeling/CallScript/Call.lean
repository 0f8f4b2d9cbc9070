import CallScript.Revert

/-!
# Calls

How a target is called, what is sent to it, and what comes back.
-/

namespace CallScript

/-- How a target is called. -/
inductive CallKind where
  /-- The target's code runs as the caller: its storage, its identity, its value. -/
  | delegate
  /-- The target runs as itself and may change things. -/
  | call
  /-- The target runs as itself and must not change anything. -/
  | static
  /-- Like `call`, with a transfer of value. -/
  | value
  deriving DecidableEq

namespace CallKind

/-- The kind in the two low bits of a flag byte. -/
def ofFlags (flags : UInt8) : CallKind :=
  match (flags &&& 0x03).toNat with
  | 0 => .delegate
  | 1 => .call
  | 2 => .static
  | _ => .value

/-- The two low bits of a flag byte. -/
def toFlags : CallKind → UInt8
  | .delegate => 0
  | .call => 1
  | .static => 2
  | .value => 3

def mnemonic : CallKind → String
  | .delegate => "delegatecall"
  | .call => "call"
  | .static => "staticcall"
  | .value => "valuecall"

/-- The kind with a mnemonic. -/
def ofMnemonic? (name : String) : Option CallKind :=
  [delegate, call, static, value].find? (·.mnemonic = name)

end CallKind

/-- A call, ready to be made. -/
structure Message where
  kind : CallKind
  target : Address
  input : Bytes
  /-- The amount to transfer; zero for every kind but `value`. -/
  value : Word := .zero
  deriving DecidableEq

/-- What comes back from a call. -/
inductive Outcome where
  | success (data : Bytes)
  | failure (data : RevertData)
  deriving DecidableEq

end CallScript
