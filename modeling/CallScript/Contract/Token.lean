import CallScript.Contract.Calldata
import CallScript.Contract.Code

/-!
# A token

A fungible token kept in the storage of the account it runs as. Anyone may mint.
-/

namespace CallScript.Contract.Token

/-- Where the total supply is kept. -/
def supplyKey : Word := .zero

/-- Where the balance of a holder is kept. -/
def holderKey (holder : Address) : Word :=
  Word.keccak [Bytes.ofText "holder", holder.bytes]

/-- Adds to the balance of a holder. -/
def credit (holder : Address) (amount : Word) : Action Unit :=
  .load (holderKey holder) fun balance => do
    let raised ← Action.orRevert (balance.add? amount) "Token: balance overflow"
    .store (holderKey holder) raised (.done ())

/-- Moves an amount from the sender to a holder. -/
def transfer (frame : Frame) (args : Bytes) : Action Bytes := do
  let receiver ← Calldata.address args 0
  let amount ← Calldata.word args 1
  .load (holderKey frame.sender) fun balance => do
    let remaining ← Action.orRevert (balance.sub? amount) "Token: transfer amount exceeds balance"
    .store (holderKey frame.sender) remaining do
      credit receiver amount
      .emit "Transfer" ((Word.ofAddress receiver).bytes ++ amount.bytes)
        (.done (Word.ofBool true).bytes)

/-- The balance of a holder. -/
def balanceOf (_ : Frame) (args : Bytes) : Action Bytes := do
  let holder ← Calldata.address args 0
  .load (holderKey holder) fun balance => .done balance.bytes

/-- The sum of all balances. -/
def totalSupply (_ : Frame) (_ : Bytes) : Action Bytes :=
  .load supplyKey fun supply => .done supply.bytes

/-- Makes an amount and gives it to a holder. -/
def mint (_ : Frame) (args : Bytes) : Action Bytes := do
  let receiver ← Calldata.address args 0
  let amount ← Calldata.word args 1
  .load supplyKey fun supply => do
    let raised ← Action.orRevert (supply.add? amount) "Token: supply overflow"
    .store supplyKey raised do
      credit receiver amount
      return []

def code : Code where
  name := "Token"
  functions :=
    [⟨"transfer(address,uint256)", transfer⟩, ⟨"balanceOf(address)", balanceOf⟩,
     ⟨"totalSupply()", totalSupply⟩, ⟨"mint(address,uint256)", mint⟩]

end CallScript.Contract.Token
