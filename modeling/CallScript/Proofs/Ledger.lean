import CallScript.Contract.Token
import CallScript.Proofs.Atomicity
import CallScript.Proofs.Word

/-!
# Bookings

Balances and tokens are kept as words in the store. A booking is one change of such a ledger: it lowers
and raises two words by an amount. What is kept at all other keys stays the same.
-/

namespace CallScript

/-! ## Words -/

namespace Store

theorem word_setStorage (s : Store) (account : Address) (key value : Word) :
    (s.setStorage account key value).word = Function.update s.word (storageKey account key) value := by
  funext other
  simp only [word, get?_setStorage, Function.update_apply]
  by_cases h : other = storageKey account key
  · rw [if_pos h, if_pos h]
    split
    · next hzero => exact (FixedBytes.isZero_iff.mp hzero).symm
    · rw [Option.bind_some, Word.ofBytes?_bytes, Option.getD_some]
  · simp only [h, ↓reduceIte]

theorem word_setBalance (s : Store) (account : Address) (amount : Word) :
    (s.setBalance account amount).word = Function.update s.word (balanceKey account) amount := by
  funext other
  simp only [word, setBalance, get?_put, Function.update_apply]
  by_cases h : other = balanceKey account <;> simp [h]

@[simp] theorem word_commit (s : Store) : s.commit.word = s.word := by
  funext key
  rw [word, get?_commit, word]

end Store

/-- The word at a key grows by an amount, and all others are kept. -/
structure Raised (key amount : Word) (before after : Word → Word) : Prop where
  value : (after key).toNat = (before key).toNat + amount.toNat
  others : ∀ other, other ≠ key → after other = before other

/-- The word at a key shrinks by an amount, and all others are kept. -/
structure Lowered (key amount : Word) (before after : Word → Word) : Prop where
  value : (after key).toNat + amount.toNat = (before key).toNat
  others : ∀ other, other ≠ key → after other = before other

section Words

variable {key amount result : Word} {words : Word → Word}

theorem Raised.of_add? (h : (words key).add? amount = some result) :
    Raised key amount words (Function.update words key result) where
  value := by rw [Function.update_self, Word.add?_eq_some.mp h]
  others other hne := Function.update_of_ne hne ..

theorem Lowered.of_sub? (h : (words key).sub? amount = some result) :
    Lowered key amount words (Function.update words key result) where
  value := by rw [Function.update_self, Word.sub?_eq_some.mp h]
  others other hne := Function.update_of_ne hne ..

theorem Lowered.le {before after : Word → Word} (h : Lowered key amount before after) (other : Word) :
    (after other).toNat ≤ (before other).toNat := by
  by_cases hother : other = key
  · rw [hother, ← h.value]
    exact Nat.le_add_right ..
  · rw [h.others other hother]

end Words

/-! ## Bookings -/

/-- A change that was made to balances or to a token. -/
inductive Booking where
  /-- Value went from one account to another. -/
  | payment (sender receiver : Address) (amount : Word)
  /-- The token in the storage of an account was made for a holder. -/
  | minting (token holder : Address) (amount : Word)
  /-- The token in the storage of an account went from one holder to another. -/
  | transfer (token sender receiver : Address) (amount : Word)
  deriving DecidableEq

namespace Booking

open Contract.Token (supplyKey holderKey)
open Store (storageKey balanceKey)

/-- The accounts between which value goes. -/
def accounts : Booking → List Address
  | payment sender receiver _ => [sender, receiver]
  | minting .. => []
  | transfer .. => []

/-- The words of storage that are written, each by its account and its key. -/
def cells : Booking → List (Address × Word)
  | payment .. => []
  | minting token holder _ => [(token, supplyKey), (token, holderKey holder)]
  | transfer token sender receiver _ => [(token, holderKey sender), (token, holderKey receiver)]

/-- What a booking does to the words of a store. -/
def Posted : Booking → (Word → Word) → (Word → Word) → Prop
  | payment sender receiver amount, before, after => ∃ words,
    Lowered (balanceKey sender) amount before words ∧ Raised (balanceKey receiver) amount words after
  | minting token holder amount, before, after => ∃ words,
    Raised (storageKey token supplyKey) amount before words ∧
      Raised (storageKey token (holderKey holder)) amount words after
  | transfer token sender receiver amount, before, after => ∃ words,
    Lowered (storageKey token (holderKey sender)) amount before words ∧
      Raised (storageKey token (holderKey receiver)) amount words after

/-- The keys of the words that are changed. -/
def keys (b : Booking) : List Word :=
  b.accounts.map balanceKey ++ b.cells.map fun cell => storageKey cell.1 cell.2

theorem Posted.others {b : Booking} {before after : Word → Word} (h : b.Posted before after) {key : Word}
    (hkey : key ∉ b.keys) : after key = before key := by
  -- All bookings change two words, one after the other.
  cases b
  all_goals
    obtain ⟨words, hfirst, hsecond⟩ := h
    simp only [keys, accounts, cells, List.map_cons, List.map_nil, List.append_nil, List.nil_append,
      List.mem_cons, List.not_mem_nil, or_false, not_or] at hkey
    rw [hsecond.others key hkey.2, hfirst.others key hkey.1]

end Booking

/-- Bookings posted one after the other. -/
inductive Postings : List Booking → (Word → Word) → (Word → Word) → Prop where
  | nil (words : Word → Word) : Postings [] words words
  | cons {b : Booking} {rest : List Booking} {before words after : Word → Word} :
    b.Posted before words → Postings rest words after → Postings (b :: rest) before after

namespace Postings

theorem single {b : Booking} {before after : Word → Word} (h : b.Posted before after) :
    Postings [b] before after :=
  .cons h (.nil after)

theorem append {first second : List Booking} {before words after : Word → Word}
    (h : Postings first before words) (h' : Postings second words after) :
    Postings (first ++ second) before after := by
  induction h with
  | nil words => exact h'
  | cons hposted _ ih => exact .cons hposted (ih h')

/-- What every single booking keeps, all of them keep. -/
theorem invariant {I : (Word → Word) → Prop} {bookings : List Booking} {before after : Word → Word}
    (h : Postings bookings before after)
    (hstep : ∀ b ∈ bookings, ∀ words words', b.Posted words words' → I words → I words')
    (hbefore : I before) : I after := by
  induction h with
  | nil words => exact hbefore
  | cons hposted _ ih =>
      obtain ⟨hfirst, hrest⟩ := List.forall_mem_cons.mp hstep
      exact ih hrest (hfirst _ _ hposted hbefore)

end Postings

/-! ## Payments -/

theorem Store.posted_transfer {s s' : Store} {sender receiver : Address} {amount : Word}
    (h : s.transfer sender receiver amount = (.ok (), s')) :
    (Booking.payment sender receiver amount).Posted s.word s'.word := by
  unfold Store.transfer at h
  split at h
  · cases h
  · next remaining hsub =>
    simp only at h
    split at h
    · cases h
    · next credited hadd =>
      cases h
      have hlowered := Lowered.of_sub? hsub
      have hraised := Raised.of_add? hadd
      rw [← Store.word_setBalance] at hlowered hraised
      exact ⟨_, hlowered, hraised⟩

end CallScript
