import CallScript.Contract.Calldata
import CallScript.Contract.Code

/-!
# Contracts that report

They emit events, or tell what they know about their frame. None of them writes to storage.
-/

namespace CallScript.Contract

/-! ## Events -/

namespace Events

/-- Emits an event once its data is known, and returns nothing. -/
def report (name : String) (data : Except RevertData Bytes) : Action Bytes := do
  let data ← data
  .emit name data (.done [])

def code : Code where
  name := "Events"
  functions :=
    [⟨"logUint(uint256)", fun _ args => report "LogUint" ((·.bytes) <$> Calldata.word args 0)⟩,
     ⟨"logString(string)", fun _ args => report "LogString" (Calldata.bytes args 0)⟩,
     ⟨"logAddress(address)", fun _ args =>
       report "LogAddress" ((fun a => (Word.ofAddress a).bytes) <$> Calldata.address args 0)⟩,
     ⟨"logBytes(bytes)", fun _ args => report "LogBytes" (Calldata.bytes args 0)⟩]

end Events

/-! ## The frame -/

namespace Sender

/-- Tells who called it. -/
def code : Code where
  name := "Sender"
  functions := [⟨"sender()", fun frame _ => return (Word.ofAddress frame.sender).bytes⟩]

end Sender

namespace Payable

/-- Accepts value through `pay()` or with an empty input, and tells its own balance. -/
def code : Code where
  name := "Payable"
  functions :=
    [⟨"pay()", fun frame _ => .emit "Paid" frame.value.bytes (.done [])⟩,
     ⟨"balance()", fun frame _ => .balance frame.address fun amount => .done amount.bytes⟩]
  fallback
    | _, [] => return []
    | _, _ => .revert (.reason "Payable: unexpected calldata")

end Payable

/-! ## Several values at once -/

namespace MultiReturn

/-- Returns two words at once, and reports a word. -/
def code : Code where
  name := "MultiReturn"
  functions :=
    [⟨"intTuple()", fun _ _ => return (Word.ofNat 0xbad).bytes ++ (Word.ofNat 0xdeed).bytes⟩,
     ⟨"tupleConsumer(uint256)", fun _ args =>
       Events.report "Calculated" ((·.bytes) <$> Calldata.word args 0)⟩]

end MultiReturn

end CallScript.Contract
