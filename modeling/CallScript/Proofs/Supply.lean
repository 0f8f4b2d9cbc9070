import CallScript.Proofs.Conservation
import Mathlib.Data.Finset.Image

/-!
# The supply of a token

A token is kept in the storage of the account it runs as: its supply, and a balance for each holder.
Whatever is asked of a world with the library, the supply of every token is the sum of its balances, as
long as no two of the keys that are used collide.
-/

namespace CallScript

open Contract.Token (supplyKey holderKey)
open Store (storageKey balanceKey)

/-! ## Requests -/

/-- What can be asked of a world. -/
inductive Request where
  | deploy (address : Address) (contract : Contract)
  | setBalance (account : Address) (amount : Word)
  | call (caller : Address) (message : Message)
  | execute (caller executor : Address) (records state : List Bytes) (value : Word)

/-- The accounts whose balance is set. -/
def Request.endowed : Request → List Address
  | deploy .. => []
  | setBalance account _ => [account]
  | call .. => []
  | execute .. => []

namespace World

/-- The world after a request, also if it fails. -/
def serve (w : World) : Request → World
  | .deploy address contract => w.deploy address contract
  | .setBalance account amount => w.setBalance account amount
  | .call caller message => (w.call caller message).2
  | .execute caller executor records state value => (w.execute caller executor records state value).2

def serveAll (w : World) (requests : List Request) : World :=
  requests.foldl serve w

def requestBookings (w : World) : Request → List Booking
  | .deploy .. => []
  | .setBalance .. => []
  | .call caller message => w.callBookings caller message
  | .execute caller executor records state value => w.executeBookings caller executor records state value

/-- The bookings of requests in order. -/
def history (w : World) : List Request → List Booking
  | [] => []
  | request :: requests => w.requestBookings request ++ (w.serve request).history requests

section Invariants

variable {I : (Word → Word) → Prop}

theorem serve_invariant {w : World} {request : Request}
    (hbooked : ∀ b ∈ w.requestBookings request, ∀ words words', b.Posted words words' →
      I words → I words')
    (hendowed : ∀ account ∈ request.endowed, ∀ words amount, I words →
      I (Function.update words (balanceKey account) amount))
    (hw : I w.store.word) : I (w.serve request).store.word := by
  cases request with
  | deploy address contract => exact hw
  | setBalance account amount =>
      simp only [serve, setBalance, Store.word_setBalance]
      exact hendowed account (.head _) _ amount hw
  | call caller message => exact (w.posts_call caller message).invariant hbooked hw
  | execute caller executor records state value =>
      exact (w.posts_execute caller executor records state value).invariant hbooked hw

/-- What the bookings of requests keep, and what setting a balance keeps, the requests keep. -/
theorem serveAll_invariant {w : World} {requests : List Request}
    (hbooked : ∀ b ∈ w.history requests, ∀ words words', b.Posted words words' → I words → I words')
    (hendowed : ∀ request ∈ requests, ∀ account ∈ request.endowed, ∀ words amount, I words →
      I (Function.update words (balanceKey account) amount))
    (hw : I w.store.word) : I (w.serveAll requests).store.word := by
  induction requests generalizing w with
  | nil => exact hw
  | cons request requests ih =>
      obtain ⟨hfirst, hrest⟩ := List.forall_mem_append.mp hbooked
      obtain ⟨hendow, hendows⟩ := List.forall_mem_cons.mp hendowed
      exact ih hrest hendows (serve_invariant hfirst hendow hw)

end Invariants

end World

/-! ## Keys -/

/-- Where the supply of a token is kept. -/
def supplySlot (token : Address) : Word :=
  storageKey token supplyKey

/-- Where the balance of a holder of a token is kept. -/
def holderSlot (token holder : Address) : Word :=
  storageKey token (holderKey holder)

namespace Booking

/-- The holders whose balance of a token is changed. -/
def holders : Booking → List Address
  | payment .. => []
  | minting _ holder _ => [holder]
  | transfer _ sender receiver _ => [sender, receiver]

/-- The holders who are given something of a token. -/
def credited (token : Address) : Booking → List Address
  | payment .. => []
  | minting booked holder _ => if booked = token then [holder] else []
  | transfer booked _ receiver _ => if booked = token then [receiver] else []

end Booking

/-- What digests are taken of: the holders of tokens, the words of storage, each by its account and its
key, and the accounts with balances. -/
structure Keys where
  holders : Finset Address
  cells : Finset (Address × Word)
  accounts : Finset Address

namespace Keys

/-- No two holders have the same key, and none has that of the supply; no two words of storage are kept
at the same place, and none where a balance is kept. -/
@[mk_iff]
structure CollisionFree (keys : Keys) : Prop where
  holders : ∀ a ∈ keys.holders, ∀ b ∈ keys.holders, holderKey a = holderKey b → a = b
  supply : ∀ a ∈ keys.holders, holderKey a ≠ supplyKey
  cells : ∀ c ∈ keys.cells, ∀ d ∈ keys.cells, storageKey c.1 c.2 = storageKey d.1 d.2 → c = d
  balances : ∀ c ∈ keys.cells, ∀ a ∈ keys.accounts, storageKey c.1 c.2 ≠ balanceKey a

instance (keys : Keys) : Decidable keys.CollisionFree :=
  decidable_of_iff' _ (collisionFree_iff keys)

/-- All that a booking changes is among these. -/
structure Covers (keys : Keys) (b : Booking) : Prop where
  holders : ∀ a ∈ b.holders, a ∈ keys.holders
  cells : ∀ c ∈ b.cells, c ∈ keys.cells
  accounts : ∀ a ∈ b.accounts, a ∈ keys.accounts

/-- A holder, with the word in which the balance of a token is kept. -/
def HasHolder (keys : Keys) (token holder : Address) : Prop :=
  holder ∈ keys.holders ∧ (token, holderKey holder) ∈ keys.cells

/-- A token with its supply and with holders. -/
structure HasToken (keys : Keys) (token : Address) (holders : Finset Address) : Prop where
  supply : (token, supplyKey) ∈ keys.cells
  holders : ∀ holder ∈ holders, keys.HasHolder token holder

variable {keys : Keys} {token : Address} {holders : Finset Address} {b : Booking}
  {before after : Word → Word}

theorem CollisionFree.slot_inj (hfree : keys.CollisionFree) {holder other : Address}
    (hholder : keys.HasHolder token holder) (hother : keys.HasHolder token other)
    (h : holderSlot token holder = holderSlot token other) : holder = other := by
  have hcell := hfree.cells _ hholder.2 _ hother.2 h
  exact hfree.holders _ hholder.1 _ hother.1 (Prod.ext_iff.mp hcell).2

theorem CollisionFree.slot_injOn (hfree : keys.CollisionFree) (htoken : keys.HasToken token holders) :
    Set.InjOn (holderSlot token) holders :=
  fun a ha b hb => hfree.slot_inj (htoken.holders a ha) (htoken.holders b hb)

theorem CollisionFree.slot_ne (hfree : keys.CollisionFree) {holder other : Address}
    (hholder : keys.HasHolder token holder) (hother : keys.HasHolder token other)
    (hne : holder ≠ other) :
    holderSlot token holder ≠ holderSlot token other :=
  fun h => hne (hfree.slot_inj hholder hother h)

theorem CollisionFree.slot_ne_supply (hfree : keys.CollisionFree) (htoken : keys.HasToken token holders)
    {holder : Address} (hholder : keys.HasHolder token holder) :
    holderSlot token holder ≠ supplySlot token := by
  intro heq
  have hcell := hfree.cells _ hholder.2 _ htoken.supply heq
  exact hfree.supply holder hholder.1 (Prod.ext_iff.mp hcell).2

/-- A booking keeps the words of storage that are not its own. -/
theorem CollisionFree.kept (hfree : keys.CollisionFree) (hcovers : keys.Covers b)
    (h : b.Posted before after) {account : Address} {key : Word} (hcell : (account, key) ∈ keys.cells)
    (hother : (account, key) ∉ b.cells) :
    after (storageKey account key) = before (storageKey account key) := by
  refine h.others fun hmem => ?_
  rcases List.mem_append.mp hmem with hbalance | hstorage
  · obtain ⟨payer, hpayer, heq⟩ := List.mem_map.mp hbalance
    exact hfree.balances _ hcell payer (hcovers.accounts payer hpayer) heq.symm
  · obtain ⟨written, hwritten, heq⟩ := List.mem_map.mp hstorage
    cases hfree.cells written (hcovers.cells written hwritten) _ hcell heq
    exact hother hwritten

end Keys

/-! ## Supplies -/

/-- The supply of a token is the sum of what its holders have, and no one else has anything. -/
structure Backed (keys : Keys) (token : Address) (holders : Finset Address) (words : Word → Word) :
    Prop where
  supply : (words (supplySlot token)).toNat = total holders (holderSlot token) words
  others : ∀ other, keys.HasHolder token other → other ∉ holders →
    (words (holderSlot token other)).toNat = 0

namespace Backed

variable {keys : Keys} {token sender receiver : Address} {holders : Finset Address} {amount : Word}
  {before after : Word → Word}

theorem congr (h : Backed keys token holders before) (htoken : keys.HasToken token holders)
    (hkept : ∀ key, (token, key) ∈ keys.cells →
      after (storageKey token key) = before (storageKey token key)) :
    Backed keys token holders after where
  supply := by
    have hsupply : after (supplySlot token) = before (supplySlot token) := hkept _ htoken.supply
    have htotal : total holders (holderSlot token) after = total holders (holderSlot token) before :=
      total_congr fun holder hholder => hkept _ (htoken.holders holder hholder).2
    rw [hsupply, htotal, h.supply]
  others other hother hnot := by
    have hbalance : after (holderSlot token other) = before (holderSlot token other) := hkept _ hother.2
    rw [hbalance, h.others other hother hnot]

theorem minting (h : Backed keys token holders before) (htoken : keys.HasToken token holders)
    (hfree : keys.CollisionFree) (hreceiver : receiver ∈ holders)
    (hposted : (Booking.minting token receiver amount).Posted before after) :
    Backed keys token holders after := by
  obtain ⟨words, hsupplied, hcredited⟩ := hposted
  have hsupplied : Raised (supplySlot token) amount before words := hsupplied
  have hcredited : Raised (holderSlot token receiver) amount words after := hcredited
  have hknown := htoken.holders receiver hreceiver
  constructor
  · have hcredit := hcredited.total_eq (hfree.slot_injOn htoken) hreceiver
    have hwords : total holders (holderSlot token) words = total holders (holderSlot token) before :=
      total_congr fun holder hholder =>
        hsupplied.others _ (hfree.slot_ne_supply htoken (htoken.holders holder hholder))
    rw [hcredited.others _ (hfree.slot_ne_supply htoken hknown).symm, hsupplied.value, h.supply, hcredit,
      hwords]
  · intro other hother hnot
    have hne : other ≠ receiver := fun heq => hnot (heq ▸ hreceiver)
    rw [hcredited.others _ (hfree.slot_ne hother hknown hne),
      hsupplied.others _ (hfree.slot_ne_supply htoken hother), h.others other hother hnot]

theorem transfer (h : Backed keys token holders before) (htoken : keys.HasToken token holders)
    (hfree : keys.CollisionFree) (hsender : keys.HasHolder token sender) (hreceiver : receiver ∈ holders)
    (hposted : (Booking.transfer token sender receiver amount).Posted before after) :
    Backed keys token holders after := by
  obtain ⟨words, hdebited, hcredited⟩ := hposted
  have hdebited : Lowered (holderSlot token sender) amount before words := hdebited
  have hcredited : Raised (holderSlot token receiver) amount words after := hcredited
  have hknown := htoken.holders receiver hreceiver
  have hsupply : after (supplySlot token) = before (supplySlot token) := by
    rw [hcredited.others _ (hfree.slot_ne_supply htoken hknown).symm,
      hdebited.others _ (hfree.slot_ne_supply htoken hsender).symm]
  have hcredit := hcredited.total_eq (hfree.slot_injOn htoken) hreceiver
  have hdebit : total holders (holderSlot token) words + amount.toNat =
      total holders (holderSlot token) before := by
    by_cases hmember : sender ∈ holders
    · exact hdebited.total_eq (hfree.slot_injOn htoken) hmember
    · -- Who was never given anything has nothing to send.
      have hnothing := h.others sender hsender hmember
      have hvalue := hdebited.value
      have hwords : total holders (holderSlot token) words = total holders (holderSlot token) before := by
        refine total_congr fun holder hholder => hdebited.others _ ?_
        exact hfree.slot_ne (htoken.holders holder hholder) hsender fun heq => hmember (heq ▸ hholder)
      omega
  constructor
  · rw [hsupply, h.supply]
    omega
  · intro other hother hnot
    have hne : other ≠ receiver := fun heq => hnot (heq ▸ hreceiver)
    have hle := hdebited.le (holderSlot token other)
    rw [h.others other hother hnot] at hle
    rw [hcredited.others _ (hfree.slot_ne hother hknown hne)]
    exact Nat.le_zero.mp hle

/-- A step: every booking keeps a token backed whose receivers are all among the holders. -/
theorem posted {b : Booking} (h : Backed keys token holders before)
    (htoken : keys.HasToken token holders) (hfree : keys.CollisionFree) (hcovers : keys.Covers b)
    (hcredited : ∀ receiver ∈ b.credited token, receiver ∈ holders) (hposted : b.Posted before after) :
    Backed keys token holders after := by
  have hforeign (hcells : ∀ cell ∈ b.cells, cell.1 ≠ token) : Backed keys token holders after :=
    h.congr htoken fun key hkey => hfree.kept hcovers hposted hkey fun hmem => hcells _ hmem rfl
  cases b with
  | payment payer payee amount => exact hforeign (by simp [Booking.cells])
  | minting booked receiver amount =>
      by_cases hbooked : booked = token
      · subst hbooked
        exact h.minting htoken hfree (hcredited receiver (by simp [Booking.credited])) hposted
      · exact hforeign (by simp [Booking.cells, hbooked])
  | transfer booked sender receiver amount =>
      by_cases hbooked : booked = token
      · subst hbooked
        have hsender : keys.HasHolder booked sender :=
          ⟨hcovers.holders _ (.head _), hcovers.cells _ (.head _)⟩
        exact h.transfer htoken hfree hsender (hcredited receiver (by simp [Booking.credited])) hposted
      · exact hforeign (by simp [Booking.cells, hbooked])

theorem setBalance {account : Address} (h : Backed keys token holders before)
    (htoken : keys.HasToken token holders) (hfree : keys.CollisionFree) (haccount : account ∈ keys.accounts)
    (amount : Word) : Backed keys token holders (Function.update before (balanceKey account) amount) :=
  h.congr htoken fun _ hkey => Function.update_of_ne (hfree.balances _ hkey account haccount) ..

theorem empty : Backed keys token holders Store.empty.word where
  supply := (Finset.sum_eq_zero fun _ _ => Word.toNat_zero).symm
  others _ _ _ := Word.toNat_zero

end Backed

/-! ## Reachable worlds -/

namespace Keys

/-- The keys that requests use, and those where the supply of a token and the balances of holders are
read. -/
def used (w : World) (requests : List Request) (token : Address) (holders : Finset Address) : Keys where
  holders := ((w.history requests).flatMap Booking.holders).toFinset ∪ holders
  cells := ((w.history requests).flatMap Booking.cells).toFinset ∪
    insert (token, supplyKey) (holders.image fun holder => (token, holderKey holder))
  accounts := ((w.history requests).flatMap Booking.accounts).toFinset ∪
    (requests.flatMap Request.endowed).toFinset

variable {w : World} {requests : List Request} {token : Address} {holders : Finset Address}

theorem covers_used {b : Booking} (hb : b ∈ w.history requests) :
    (used w requests token holders).Covers b where
  holders _ ha := Finset.mem_union_left _ (List.mem_toFinset.mpr (List.mem_flatMap.mpr ⟨b, hb, ha⟩))
  cells _ hc := Finset.mem_union_left _ (List.mem_toFinset.mpr (List.mem_flatMap.mpr ⟨b, hb, hc⟩))
  accounts _ ha := Finset.mem_union_left _ (List.mem_toFinset.mpr (List.mem_flatMap.mpr ⟨b, hb, ha⟩))

theorem endowed_used {request : Request} (hrequest : request ∈ requests) {account : Address}
    (haccount : account ∈ request.endowed) : account ∈ (used w requests token holders).accounts :=
  Finset.mem_union_right _ (List.mem_toFinset.mpr (List.mem_flatMap.mpr ⟨request, hrequest, haccount⟩))

theorem hasToken_used : (used w requests token holders).HasToken token holders where
  supply := Finset.mem_union_right _ (Finset.mem_insert_self ..)
  holders holder hholder := by
    refine ⟨Finset.mem_union_right _ hholder, Finset.mem_union_right _ ?_⟩
    exact Finset.mem_insert_of_mem (Finset.mem_image_of_mem _ hholder)

end Keys

/-- In every world that comes from the library by requests, whether they succeed or fail, the supply of a
token is the sum of what its holders have, for all holders that include everyone who was ever given
something. The token may be kept by any account. -/
theorem World.supply_eq_sum_holders (requests : List Request) (token : Address)
    (holders : Finset Address)
    (hcredited : ∀ b ∈ library.history requests, ∀ receiver ∈ b.credited token, receiver ∈ holders)
    (hfree : (Keys.used library requests token holders).CollisionFree) :
    ((library.serveAll requests).storage token supplyKey).toNat =
      ∑ holder ∈ holders, ((library.serveAll requests).storage token (holderKey holder)).toNat := by
  have hbacked : Backed (Keys.used library requests token holders) token holders
      (library.serveAll requests).store.word := by
    refine serveAll_invariant ?_ ?_ .empty
    · intro b hb before after hposted hbefore
      exact hbefore.posted Keys.hasToken_used hfree (Keys.covers_used hb) (hcredited b hb) hposted
    · intro request hrequest account haccount words amount hwords
      exact hwords.setBalance Keys.hasToken_used hfree (Keys.endowed_used hrequest haccount) amount
  exact hbacked.supply

/-- An account that delegates to the token: it makes seven for itself and gives three away. -/
theorem World.supply_eq_sum_holders_delegated :
    let owner : Address := FixedBytes.ofNat 20 1
    let friend : Address := FixedBytes.ofNat 20 2
    let ask (signature : String) (receiver : Address) (amount : Nat) : Request :=
      .call owner
        { kind := .delegate
          target := Contract.token.address
          input := (Selector.ofSignature signature).bytes ++
            Abi.encode [.word (Word.ofAddress receiver), .word (Word.ofNat amount)] }
    let requests := [.setBalance owner (Word.ofNat 5), ask "mint(address,uint256)" owner 7,
      ask "transfer(address,uint256)" friend 3]
    let holders : Finset Address := {owner, friend}
    library.history requests =
        [.minting owner owner (Word.ofNat 7), .transfer owner owner friend (Word.ofNat 3)] ∧
      ((library.serveAll requests).storage owner supplyKey).toNat =
        ∑ holder ∈ holders, ((library.serveAll requests).storage owner (holderKey holder)).toNat := by
  intro owner friend ask requests holders
  have hbooked : library.history requests =
      [.minting owner owner (Word.ofNat 7), .transfer owner owner friend (Word.ofNat 3)] := by
    decide +kernel
  refine ⟨hbooked, supply_eq_sum_holders requests owner holders ?_ ?_⟩
  · rw [hbooked]
    decide +kernel
  · rw [Keys.used, hbooked]
    decide +kernel

end CallScript
