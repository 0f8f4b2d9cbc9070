import CallScript.Proofs.Bookings
import Mathlib.Algebra.BigOperators.Group.Finset.Basic

/-!
# Value is conserved

A payment lowers one balance and raises another by the same amount, also if both are the same. No other
booking touches a balance, as long as no key of storage happens to be the key of a balance. So calls and
runs leave the sum of all balances as it was.
-/

namespace CallScript

/-! ## Sums of words -/

section Totals

variable {ι : Type} {positions : Finset ι} {key : ι → Word} {amount : Word} {i : ι}
  {before after : Word → Word}

/-- The sum of the words that are kept for finitely many positions. -/
def total (positions : Finset ι) (key : ι → Word) (words : Word → Word) : Nat :=
  ∑ i ∈ positions, (words (key i)).toNat

theorem total_congr (h : ∀ i ∈ positions, after (key i) = before (key i)) :
    total positions key after = total positions key before :=
  Finset.sum_congr rfl fun i hi => by rw [h i hi]

/-- A sum changes by as much as the one word of it that changes. -/
theorem total_change (hkeys : Set.InjOn key positions) (hi : i ∈ positions)
    (hothers : ∀ other, other ≠ key i → after other = before other) :
    total positions key after + (before (key i)).toNat =
      total positions key before + (after (key i)).toNat := by
  classical
  have hrest : total (positions.erase i) key after = total (positions.erase i) key before := by
    apply total_congr
    intro j hj
    obtain ⟨hne, hj⟩ := Finset.mem_erase.mp hj
    exact hothers (key j) fun heq => hne (hkeys hj hi heq)
  have hsplit (words : Word → Word) :
      total positions key words = (words (key i)).toNat + total (positions.erase i) key words :=
    (Finset.add_sum_erase positions (fun j => (words (key j)).toNat) hi).symm
  rw [hsplit before, hsplit after, hrest]
  omega

theorem Raised.total_eq (h : Raised (key i) amount before after) (hkeys : Set.InjOn key positions)
    (hi : i ∈ positions) : total positions key after = total positions key before + amount.toNat := by
  have hchange := total_change hkeys hi h.others
  have hvalue := h.value
  omega

theorem Lowered.total_eq (h : Lowered (key i) amount before after) (hkeys : Set.InjOn key positions)
    (hi : i ∈ positions) : total positions key after + amount.toNat = total positions key before := by
  have hchange := total_change hkeys hi h.others
  have hvalue := h.value
  omega

end Totals

/-! ## Balances -/

namespace Booking

variable {b : Booking} {accounts : Finset Address} {before after : Word → Word}

/-- Value goes between these accounts only, and no storage is written where one of their balances is
kept. -/
structure ConfinedTo (b : Booking) (accounts : Finset Address) : Prop where
  moves : ∀ account ∈ b.accounts, account ∈ accounts
  writes : ∀ cell ∈ b.cells, ∀ account ∈ accounts,
    Store.storageKey cell.1 cell.2 ≠ Store.balanceKey account

theorem ConfinedTo.balanceKey_not_mem (hb : b.ConfinedTo accounts) (hfree : b.accounts = [])
    {account : Address} (haccount : account ∈ accounts) : Store.balanceKey account ∉ b.keys := by
  rw [keys, hfree, List.map_nil, List.nil_append, List.mem_map]
  rintro ⟨cell, hcell, heq⟩
  exact hb.writes cell hcell account haccount heq

theorem Posted.total_balances (h : b.Posted before after) (hkeys : Set.InjOn Store.balanceKey accounts)
    (hb : b.ConfinedTo accounts) :
    total accounts Store.balanceKey after = total accounts Store.balanceKey before := by
  cases b with
  | payment sender receiver amount =>
      obtain ⟨words, hlowered, hraised⟩ := h
      have hdebit := hlowered.total_eq hkeys (hb.moves sender (.head _))
      have hcredit := hraised.total_eq hkeys (hb.moves receiver (.tail _ (.head _)))
      omega
  | minting token holder amount =>
      exact total_congr fun account haccount => h.others (hb.balanceKey_not_mem rfl haccount)
  | transfer token sender receiver amount =>
      exact total_congr fun account haccount => h.others (hb.balanceKey_not_mem rfl haccount)

end Booking

theorem Postings.total_balances {bookings : List Booking} {accounts : Finset Address}
    {before after : Word → Word} (h : Postings bookings before after)
    (hkeys : Set.InjOn Store.balanceKey accounts) (hconfined : ∀ b ∈ bookings, b.ConfinedTo accounts) :
    total accounts Store.balanceKey after = total accounts Store.balanceKey before := by
  refine h.invariant (I := fun words =>
    total accounts Store.balanceKey words = total accounts Store.balanceKey before) ?_ rfl
  intro b hb words words' hposted hwords
  rw [hposted.total_balances hkeys (hconfined b hb), hwords]

/-- Calls and runs conserve value, however they end: the sum of the balances of finitely many accounts
stays the same if value goes between these accounts only. Their balances have to be kept at different
keys, and not where storage is written; of what was undone again, nothing is asked. -/
theorem World.balances_conserved (w : World) (accounts : Finset Address)
    (hkeys : Set.InjOn Store.balanceKey accounts) :
    (∀ (caller : Address) (message : Message),
      (∀ b ∈ w.callBookings caller message, b.ConfinedTo accounts) →
      ∑ a ∈ accounts, ((w.call caller message).2.balance a).toNat =
        ∑ a ∈ accounts, (w.balance a).toNat) ∧
    ∀ (caller executor : Address) (records state : List Bytes) (value : Word),
      (∀ b ∈ w.executeBookings caller executor records state value, b.ConfinedTo accounts) →
      ∑ a ∈ accounts, ((w.execute caller executor records state value).2.balance a).toNat =
        ∑ a ∈ accounts, (w.balance a).toNat := by
  refine ⟨fun caller message hconfined => ?_, fun caller executor records state value hconfined => ?_⟩
  · exact (w.posts_call caller message).total_balances hkeys hconfined
  · exact (w.posts_execute caller executor records state value).total_balances hkeys hconfined

/-- A call that pays, and a run that is paid for and pays on. -/
theorem World.balances_conserved_two_payments :
    let caller : Address := FixedBytes.ofNat 20 1
    let executor : Address := FixedBytes.ofNat 20 2
    let payee : Address := FixedBytes.ofNat 20 3
    let accounts : Finset Address := {caller, executor, payee}
    let w := World.empty.setBalance caller (Word.ofNat 9)
    let message : Message := { kind := .value, target := payee, input := [], value := Word.ofNat 4 }
    let records := [(Command.make .value .fallback payee [.static 0] .discard 0).toRecord.bytes]
    let state := [(Word.ofNat 3).bytes]
    (w.callBookings caller message = [.payment caller payee (Word.ofNat 4)] ∧
      ∑ a ∈ accounts, ((w.call caller message).2.balance a).toNat =
        ∑ a ∈ accounts, (w.balance a).toNat) ∧
    w.executeBookings caller executor records state (Word.ofNat 5) =
        [.payment caller executor (Word.ofNat 5), .payment executor payee (Word.ofNat 3)] ∧
      ∑ a ∈ accounts, ((w.execute caller executor records state (Word.ofNat 5)).2.balance a).toNat =
        ∑ a ∈ accounts, (w.balance a).toNat := by
  intro caller executor payee accounts w message records state
  have hcalled : w.callBookings caller message = [.payment caller payee (Word.ofNat 4)] := by
    decide +kernel
  have hran : w.executeBookings caller executor records state (Word.ofNat 5) =
      [.payment caller executor (Word.ofNat 5), .payment executor payee (Word.ofNat 3)] := by
    decide +kernel
  have hkeys : ∀ a ∈ accounts, ∀ b ∈ accounts, Store.balanceKey a = Store.balanceKey b → a = b := by
    decide +kernel
  have hpayment (sender receiver : Address) (amount : Word) (hsender : sender ∈ accounts)
      (hreceiver : receiver ∈ accounts) :
      (Booking.payment sender receiver amount).ConfinedTo accounts :=
    ⟨by simp [Booking.accounts, hsender, hreceiver], by simp [Booking.cells]⟩
  have hconserved := World.balances_conserved w accounts fun a ha b hb => hkeys a ha b hb
  refine ⟨⟨hcalled, hconserved.1 caller message ?_⟩,
    hran, hconserved.2 caller executor records state _ ?_⟩
  · simp [hcalled, hpayment, accounts]
  · simp [hran, hpayment, accounts]

end CallScript
