import CallScript.Revert
import CallScript.Store
import CallScript.Word.Arithmetic

/-!
# Accounts in a store

Storage and balances of all accounts share one store. Their keys are digests of the account and of
what is kept there.
-/

namespace CallScript.Store

/-- Where word `key` of an account's storage is kept. -/
def storageKey (account : Address) (key : Word) : Word :=
  Word.keccak [Bytes.ofText "storage", account.bytes, key.bytes]

/-- Where the balance of an account is kept. -/
def balanceKey (account : Address) : Word :=
  Word.keccak [Bytes.ofText "balance", account.bytes]

/-- A word of an account's storage. -/
def storage (s : Store) (account : Address) (key : Word) : Word :=
  s.word (storageKey account key)

/-- Writes a word of an account's storage; zero is kept by removing the key. -/
def setStorage (s : Store) (account : Address) (key value : Word) : Store :=
  if value.isZero then s.erase (storageKey account key)
  else s.put (storageKey account key) value.bytes

def balance (s : Store) (account : Address) : Word :=
  s.word (balanceKey account)

def setBalance (s : Store) (account : Address) (amount : Word) : Store :=
  s.put (balanceKey account) amount.bytes

/-- Moves an amount between accounts. The sender is debited before the receiver is credited, also when
the credit then fails. -/
def transfer (s : Store) (sender receiver : Address) (amount : Word) :
    Except RevertData Unit × Store :=
  match (s.balance sender).sub? amount with
  | none => (.error (.reason "insufficient balance"), s)
  | some remaining =>
    let debited := s.setBalance sender remaining
    match (debited.balance receiver).add? amount with
    | none => (.error (.reason "balance overflow"), debited)
    | some credited => (.ok (), debited.setBalance receiver credited)

end CallScript.Store
