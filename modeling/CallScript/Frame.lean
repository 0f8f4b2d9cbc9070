import CallScript.Call

/-!
# Frames

A frame says on whose behalf code runs.
-/

namespace CallScript

/-- Identity and rights of running code. -/
structure Frame where
  /-- The account whose storage and balance are used. -/
  address : Address
  /-- The account whose code runs; another one under delegation. -/
  code : Address
  sender : Address
  value : Word
  /-- Nothing may be changed. -/
  isStatic : Bool := false
  deriving DecidableEq

namespace Frame

/-- The frame of an account that is called from outside. -/
def root (sender address : Address) (value : Word) : Frame :=
  { address, code := address, sender, value }

/-- The frame of a call made from a frame. -/
def child (parent : Frame) (kind : CallKind) (target : Address) (value : Word) : Frame :=
  match kind with
  | .delegate => { parent with code := target }
  | .call => ⟨target, target, parent.address, .zero, parent.isStatic⟩
  | .static => ⟨target, target, parent.address, .zero, true⟩
  | .value => ⟨target, target, parent.address, value, parent.isStatic⟩

end Frame

end CallScript
