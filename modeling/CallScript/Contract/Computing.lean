import CallScript.Contract.Calldata
import CallScript.Contract.Code

/-!
# Contracts that only compute

Checked arithmetic, byte strings, tuples, a whole state as an argument, and a contract that always
fails. None of them touches storage, events or other accounts.
-/

namespace CallScript.Contract

/-! ## Arithmetic -/

namespace Math

/-- A function of two words. -/
def binary (operation : Word → Word → Option Word) (_ : Frame) (args : Bytes) : Action Bytes := do
  let a ← Calldata.word args 0
  let b ← Calldata.word args 1
  let result ← Action.orRevert (operation a b) "arithmetic overflow"
  return result.bytes

/-- The total of an array of words. -/
def sum (_ : Frame) (args : Bytes) : Action Bytes := do
  let items ← Calldata.words args 0
  let total ← Action.orRevert (items.foldlM Word.add? Word.zero) "arithmetic overflow"
  return total.bytes

/-- Checked arithmetic on words. A function that is not listed has its two arguments read before it is
refused. -/
def code : Code where
  name := "Math"
  functions :=
    [⟨"add(uint256,uint256)", binary Word.add?⟩,
     ⟨"sub(uint256,uint256)", binary Word.sub?⟩,
     ⟨"mul(uint256,uint256)", binary Word.mul?⟩,
     ⟨"sum(uint256[])", sum⟩]
  unknown signature args := do
    let _ ← Calldata.word args 0
    let _ ← Calldata.word args 1
    .revert (.reason s!"Math: unknown function {signature}")

end Math

/-! ## Byte strings -/

namespace Strings

def length (_ : Frame) (args : Bytes) : Action Bytes := do
  let text ← Calldata.bytes args 0
  return (Word.ofNat text.length).bytes

def concat (_ : Frame) (args : Bytes) : Action Bytes := do
  let front ← Calldata.bytes args 0
  let back ← Calldata.bytes args 1
  return Abi.encode [.bytes (front ++ back)]

/-- Lengths and concatenations of byte strings. -/
def code : Code where
  name := "Strings"
  functions := [⟨"strlen(string)", length⟩, ⟨"strcat(string,string)", concat⟩]

end Strings

/-! ## Tuples -/

namespace Tupler

/-- One word of a byte string that holds a tuple. -/
def extract (_ : Frame) (args : Bytes) : Action Bytes := do
  let tuple ← Calldata.bytes args 0
  let index ← Calldata.position args 1
  let element ← Calldata.word tuple index
  return element.bytes

/-- Takes tuples apart. -/
def code : Code where
  name := "Tupler"
  functions := [⟨"extractElement(bytes,uint256)", extract⟩]

end Tupler

/-! ## A whole state -/

namespace StateTest

/-- The word in one slot of a state. -/
def slotWord (state : List Bytes) (index : UInt64) : Action Word :=
  Action.orRevert (state[index.toNat]?.bind Word.ofBytes?) "StateTest: slot is not a word"

/-- The state with the sum of two of its slots in a third. -/
def addSlots (_ : Frame) (args : Bytes) : Action Bytes := do
  let target ← Calldata.position args 0
  let a ← Calldata.position args 1
  let b ← Calldata.position args 2
  let state ← Calldata.bytesArray args 3
  let x ← slotWord state a
  let y ← slotWord state b
  let sum ← Action.orRevert (x.add? y) "arithmetic overflow"
  if target.toNat < state.length then
    return Abi.encode [.bytesArray (state.set target.toNat sum.bytes)]
  else .revert (.reason "StateTest: destination out of range")

/-- Works on a state that is passed as a whole. -/
def code : Code where
  name := "StateTest"
  functions := [⟨"addSlots(uint256,uint256,uint256,bytes[])", addSlots⟩]

end StateTest

/-! ## Failure -/

namespace Revert

def fail : Action Bytes :=
  .revert (.reason "Hello World!")

/-- Always fails, whatever function is called. -/
def code : Code where
  name := "Revert"
  functions := [⟨"fail()", fun _ _ => fail⟩]
  unknown _ _ := fail

end Revert

end CallScript.Contract
