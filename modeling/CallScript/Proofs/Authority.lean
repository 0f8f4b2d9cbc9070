import CallScript.Proofs.Supply

/-!
# Who can be debited

A frame spends in two names: payments come from its account, and tokens from its sender. The executor is
the only contract that makes calls, so the names that can turn up anywhere below a frame are its own two and
the accounts where the executor is deployed. Nobody else loses anything.
-/

namespace CallScript

open Contract.Token (holderKey)
open Store (storageKey balanceKey)

/-! ## Code that makes no calls -/

namespace Action

variable {α : Type} {host : Host Session} {below : Message → Session → List Booking} {frame : Frame}

theorem Within.bookings_eq_nil {allowed : Effect → Prop} {action : Action α} (h : action.Within allowed)
    (hcall : ¬ allowed .call) (s : Session) : action.bookings host below frame s = [] := by
  induction action generalizing s with
  | done result => rfl
  | revert data => rfl
  | load key next ih => exact ih _ (h _) s
  | store key value next ih =>
      simp only [bookings]
      split
      · rfl
      · exact ih h.2 _
  | balance account next ih => exact ih _ (h _) s
  | emit name data next ih =>
      simp only [bookings]
      split
      · rfl
      · exact ih h _
  | call message next ih => exact absurd h.1 hcall
  | note line next ih => exact ih h _

theorem mem_bookings {action : Action α} {b : Booking} {s : Session}
    (h : b ∈ action.bookings host below frame s) : ∃ message s', b ∈ below message s' := by
  induction action generalizing s with
  | done result => simp [bookings] at h
  | revert data => simp [bookings] at h
  | load key next ih => exact ih _ h
  | store key value next ih =>
      simp only [bookings] at h
      split at h
      · simp at h
      · exact ih h
  | balance account next ih => exact ih _ h
  | emit name data next ih =>
      simp only [bookings] at h
      split at h
      · simp at h
      · exact ih h
  | call message next ih =>
      rcases List.mem_append.mp h with hmade | hlater
      · exact ⟨message, s, hmade⟩
      · exact ih _ hlater
  | note line next ih => exact ih h

end Action

/-! ## Parties -/

/-- Who gives something away. -/
def Booking.debited : Booking → List Address
  | payment sender _ _ => [sender]
  | minting .. => []
  | transfer _ sender _ _ => [sender]

/-- In whose name calls and transfers can be made anywhere below a frame: its own account, its sender, and
every account where the executor is deployed. -/
def Frame.parties (contracts : Contracts) (frame : Frame) : Set Address :=
  {account | account = frame.address ∨ account = frame.sender ∨
    contracts.get? account = some .executor}

namespace Frame

variable {contracts : Contracts} {parent : Frame} {message : Message}

theorem sender_child_mem (kind : CallKind) (target : Address) (value : Word) :
    (parent.child kind target value).sender ∈ parent.parties contracts := by
  cases kind with
  | delegate => exact .inr (.inl rfl)
  | call => exact .inl rfl
  | static => exact .inl rfl
  | value => exact .inl rfl

/-- A frame that runs the executor has its own account among the parties: it was delegated to, or it is
called where it is deployed. -/
theorem address_child_mem {kind : CallKind} {target : Address} {value : Word}
    (h : contracts.get? (parent.child kind target value).code = some .executor) :
    (parent.child kind target value).address ∈ parent.parties contracts := by
  cases kind with
  | delegate => exact .inl rfl
  | call => exact .inr (.inr h)
  | static => exact .inr (.inr h)
  | value => exact .inr (.inr h)

/-- The parties are closed: from a frame that makes calls nobody else comes in. -/
theorem parties_child_subset {kind : CallKind} {target : Address} {value : Word}
    (h : contracts.get? (parent.child kind target value).code = some .executor) :
    (parent.child kind target value).parties contracts ⊆ parent.parties contracts := by
  rintro account (rfl | rfl | hexecutor)
  · exact address_child_mem h
  · exact sender_child_mem kind target value
  · exact .inr (.inr hexecutor)

theorem debited_payments {b : Booking} (hb : b ∈ parent.payments message) :
    ∀ payer ∈ b.debited, payer ∈ parent.parties contracts := by
  unfold payments at hb
  split at hb
  · cases List.mem_singleton.mp hb
    simp [Booking.debited, parties]
  · simp at hb

end Frame

theorem Contract.Token.debited_bookings {frame : Frame} {input : Bytes} {b : Booking}
    (hb : b ∈ bookings frame input) : ∀ payer ∈ b.debited, payer = frame.sender := by
  unfold bookings at hb
  split at hb
  · split at hb
    · cases List.mem_singleton.mp hb
      simp [Booking.debited]
    · split at hb
      · cases List.mem_singleton.mp hb
        simp [Booking.debited]
      · simp at hb
  · simp at hb

/-- Code debits nobody but the sender of its frame, unless it is the executor: then the calls it makes do. -/
theorem Contract.debited_bookings {contract : Contract} {host : Host Session}
    {below : Message → Session → List Booking} {frame : Frame} {input : Bytes} {s : Session} {b : Booking}
    (hb : b ∈ contract.bookings host below frame input s) :
    (∀ payer ∈ b.debited, payer = frame.sender) ∨
      contract = .executor ∧ ∃ message s', b ∈ below message s' := by
  unfold Contract.bookings at hb
  split at hb
  · exact .inl (Token.debited_bookings hb)
  · by_cases hexecutor : contract = .executor
    · exact .inr ⟨hexecutor, Action.mem_bookings hb⟩
    · rw [(contract.within_route frame input).bookings_eq_nil (mt effects_call.mp hexecutor)] at hb
      simp at hb

/-- Whatever is called below a frame, only its parties are debited. -/
theorem debited_mem_parties (contracts : Contracts) (room : Nat) (parent : Frame) (message : Message)
    (s : Session) : ∀ b ∈ bookings contracts room parent message s, ∀ payer ∈ b.debited,
      payer ∈ parent.parties contracts := by
  induction room generalizing parent message s with
  | zero => simp [bookings]
  | succ room ih =>
      intro b hb payer hpayer
      simp only [bookings] at hb
      split at hb
      · simp at hb
      · rcases List.mem_append.mp hb with hpaid | hcode
        · exact Frame.debited_payments hpaid payer hpayer
        · split at hcode
          · simp at hcode
          · next contract hcontract =>
            rcases Contract.debited_bookings hcode with hsender | ⟨rfl, inner, s', hbelow⟩
            · rw [hsender payer hpayer]
              exact Frame.sender_child_mem ..
            · exact Frame.parties_child_subset hcontract (ih _ inner s' b hbelow payer hpayer)

/-! ## Words that are not lowered -/

theorem Raised.le {key amount : Word} {before after : Word → Word} (h : Raised key amount before after)
    (other : Word) : (before other).toNat ≤ (after other).toNat := by
  by_cases hother : other = key
  · rw [hother, h.value]
    exact Nat.le_add_right ..
  · rw [h.others other hother]

theorem Lowered.le_of_raised {key key' amount amount' : Word} {before words after : Word → Word}
    (h : Lowered key amount before words) (h' : Raised key' amount' words after) {other : Word}
    (hother : other ∉ [key]) : (before other).toNat ≤ (after other).toNat := by
  rw [← h.others other fun heq => hother (List.mem_singleton.mpr heq)]
  exact h'.le other

namespace Booking

variable {b : Booking} {before after : Word → Word}

/-- Where something is taken away. -/
def debitedKeys : Booking → List Word
  | payment sender _ _ => [balanceKey sender]
  | minting .. => []
  | transfer token sender _ _ => [holderSlot token sender]

theorem Posted.le (h : b.Posted before after) {key : Word} (hkey : key ∉ b.debitedKeys) :
    (before key).toNat ≤ (after key).toNat := by
  cases b with
  | payment sender receiver amount =>
      obtain ⟨words, hlowered, hraised⟩ := h
      exact hlowered.le_of_raised hraised hkey
  | minting token holder amount =>
      obtain ⟨words, hsupplied, hcredited⟩ := h
      exact Nat.le_trans (hsupplied.le key) (hcredited.le key)
  | transfer token sender receiver amount =>
      obtain ⟨words, hlowered, hraised⟩ := h
      exact hlowered.le_of_raised hraised hkey

end Booking

theorem Postings.le {bookings : List Booking} {before after : Word → Word}
    (h : Postings bookings before after) {key : Word} (hkey : ∀ b ∈ bookings, key ∉ b.debitedKeys) :
    (before key).toNat ≤ (after key).toNat := by
  refine h.invariant (I := fun words => (before key).toNat ≤ (words key).toNat) ?_ (Nat.le_refl _)
  intro b hb words words' hposted hwords
  exact Nat.le_trans hwords (hposted.le (hkey b hb))

namespace Keys

/-- No two balances, no two holders and no two words of storage have the same key, and no word of storage
is kept where a balance is kept. -/
@[mk_iff]
structure Apart (keys : Keys) : Prop where
  accounts : ∀ a ∈ keys.accounts, ∀ b ∈ keys.accounts, balanceKey a = balanceKey b → a = b
  holders : ∀ a ∈ keys.holders, ∀ b ∈ keys.holders, holderKey a = holderKey b → a = b
  cells : ∀ c ∈ keys.cells, ∀ d ∈ keys.cells, storageKey c.1 c.2 = storageKey d.1 d.2 → c = d
  balances : ∀ c ∈ keys.cells, ∀ a ∈ keys.accounts, storageKey c.1 c.2 ≠ balanceKey a

instance (keys : Keys) : Decidable keys.Apart :=
  decidable_of_iff' _ (apart_iff keys)

/-- The keys that bookings use, and those of one account: its balance, and what it holds of a token. -/
def around (bookings : List Booking) (account token : Address) : Keys where
  holders := insert account (bookings.flatMap Booking.holders).toFinset
  cells := insert (token, holderKey account) (bookings.flatMap Booking.cells).toFinset
  accounts := insert account (bookings.flatMap Booking.accounts).toFinset

variable {bookings : List Booking} {account token : Address} {b : Booking}

theorem covers_around (hb : b ∈ bookings) : (around bookings account token).Covers b where
  holders _ ha := Finset.mem_insert_of_mem (List.mem_toFinset.mpr (List.mem_flatMap.mpr ⟨b, hb, ha⟩))
  cells _ hc := Finset.mem_insert_of_mem (List.mem_toFinset.mpr (List.mem_flatMap.mpr ⟨b, hb, hc⟩))
  accounts _ ha := Finset.mem_insert_of_mem (List.mem_toFinset.mpr (List.mem_flatMap.mpr ⟨b, hb, ha⟩))

theorem Apart.balanceKey_not_mem (h : (around bookings account token).Apart) (hb : b ∈ bookings)
    (haccount : account ∉ b.debited) : balanceKey account ∉ b.debitedKeys := by
  have hcovers : (around bookings account token).Covers b := covers_around hb
  have hself : account ∈ (around bookings account token).accounts := Finset.mem_insert_self ..
  cases b with
  | payment sender receiver amount =>
      intro hmem
      have hsender := hcovers.accounts sender (.head _)
      exact haccount (List.mem_singleton.mpr (h.accounts _ hself _ hsender (List.mem_singleton.mp hmem)))
  | minting token holder amount => exact List.not_mem_nil
  | transfer booked sender receiver amount =>
      intro hmem
      have hcell := hcovers.cells (booked, holderKey sender) (.head _)
      exact h.balances _ hcell _ hself (List.mem_singleton.mp hmem).symm

theorem Apart.holderSlot_not_mem (h : (around bookings account token).Apart) (hb : b ∈ bookings)
    (haccount : account ∉ b.debited) : holderSlot token account ∉ b.debitedKeys := by
  have hcovers : (around bookings account token).Covers b := covers_around hb
  have hself : (token, holderKey account) ∈ (around bookings account token).cells :=
    Finset.mem_insert_self ..
  cases b with
  | payment sender receiver amount =>
      intro hmem
      exact h.balances _ hself _ (hcovers.accounts sender (.head _)) (List.mem_singleton.mp hmem)
  | minting token holder amount => exact List.not_mem_nil
  | transfer booked sender receiver amount =>
      intro hmem
      -- The same word means the same token and the same key, hence the same holder.
      have hcell := h.cells _ hself _ (hcovers.cells _ (.head _)) (List.mem_singleton.mp hmem)
      have hholder := h.holders _ (Finset.mem_insert_self ..) _ (hcovers.holders sender (.head _))
        (Prod.ext_iff.mp hcell).2
      exact haccount (List.mem_singleton.mpr hholder)

end Keys

theorem Postings.le_of_not_debited {bookings : List Booking} {before after : Word → Word}
    {account token : Address} (h : Postings bookings before after)
    (hfree : (Keys.around bookings account token).Apart) (haccount : ∀ b ∈ bookings, account ∉ b.debited) :
    (before (balanceKey account)).toNat ≤ (after (balanceKey account)).toNat ∧
      (before (holderSlot token account)).toNat ≤ (after (holderSlot token account)).toNat :=
  ⟨h.le fun b hb => hfree.balanceKey_not_mem hb (haccount b hb),
    h.le fun b hb => hfree.holderSlot_not_mem hb (haccount b hb)⟩

/-! ## Worlds -/

namespace World

theorem debited_callBookings (w : World) (caller : Address) (message : Message) :
    ∀ b ∈ w.callBookings caller message, ∀ payer ∈ b.debited,
      payer ∈ (Frame.root caller caller .zero).parties w.contracts :=
  debited_mem_parties w.contracts maxDepth _ message w.session

theorem debited_executeBookings (w : World) (caller executor : Address) (records state : List Bytes)
    (value : Word) : ∀ b ∈ w.executeBookings caller executor records state value, ∀ payer ∈ b.debited,
      payer ∈ (Frame.root caller executor value).parties w.contracts := by
  intro b hb payer hpayer
  unfold executeBookings at hb
  split at hb
  · rcases List.mem_append.mp hb with hpaid | hcalls
    · split at hpaid
      · simp at hpaid
      · cases List.mem_singleton.mp hpaid
        cases List.mem_singleton.mp hpayer
        exact .inr (.inl rfl)
    · obtain ⟨message, s, hbelow⟩ := Action.mem_bookings hcalls
      exact debited_mem_parties _ _ _ message s b hbelow payer hpayer
  · simp at hb

/-- A call or a run takes nothing from anyone but its caller, the account it runs as, and the accounts where
the executor is deployed: every other account has at least the balance it had, and of every token, wherever
it is kept, at least what it held. The keys that are used, and those of the account, must not collide. -/
theorem no_third_party_debit (w : World) (account : Address)
    (hcode : w.contracts.get? account ≠ some .executor) :
    (∀ (caller : Address) (message : Message) (token : Address), account ≠ caller →
      (Keys.around (w.callBookings caller message) account token).Apart →
      (w.balance account).toNat ≤ ((w.call caller message).2.balance account).toNat ∧
        (w.storage token (holderKey account)).toNat ≤
          ((w.call caller message).2.storage token (holderKey account)).toNat) ∧
    ∀ (caller executor : Address) (records state : List Bytes) (value : Word) (token : Address),
      account ≠ caller → account ≠ executor →
      (Keys.around (w.executeBookings caller executor records state value) account token).Apart →
      (w.balance account).toNat ≤
          ((w.execute caller executor records state value).2.balance account).toNat ∧
        (w.storage token (holderKey account)).toNat ≤
          ((w.execute caller executor records state value).2.storage token (holderKey account)).toNat := by
  constructor
  · intro caller message token hcaller hfree
    refine (w.posts_call caller message).le_of_not_debited hfree fun b hb hmem => ?_
    rcases w.debited_callBookings caller message b hb account hmem with heq | heq | hexecutor
    · exact hcaller heq
    · exact hcaller heq
    · exact hcode hexecutor
  · intro caller executor records state value token hcaller hexecutor hfree
    refine (w.posts_execute caller executor records state value).le_of_not_debited hfree fun b hb hmem => ?_
    rcases w.debited_executeBookings caller executor records state value b hb account hmem with
      heq | heq | hdeployed
    · exact hexecutor heq
    · exact hcaller heq
    · exact hcode hdeployed

/-- A friend who is paid, and is given of a token that the account of the run has made for itself. -/
theorem no_third_party_debit_friend :
    let caller : Address := FixedBytes.ofNat 20 1
    let executor : Address := FixedBytes.ofNat 20 2
    let friend : Address := FixedBytes.ofNat 20 3
    let token : Address := FixedBytes.ofNat 20 7
    let w := (World.empty.deploy token .token).setBalance caller (Word.ofNat 9)
    let ask (signature : String) (args : List Arg) : Bytes :=
      (Command.make .call (.ofSignature signature) token args .discard 0).toRecord.bytes
    let pay := (Command.make .value .fallback friend [.static 1] .discard 0).toRecord.bytes
    let records := [ask "mint(address,uint256)" [.static 2, .static 0],
      ask "transfer(address,uint256)" [.static 3, .static 1], pay]
    let state := [(Word.ofNat 5).bytes, (Word.ofNat 3).bytes, (Word.ofAddress executor).bytes,
      (Word.ofAddress friend).bytes]
    let ended := (w.execute caller executor records state (Word.ofNat 4)).2
    w.executeBookings caller executor records state (Word.ofNat 4) =
        [.payment caller executor (Word.ofNat 4), .minting token executor (Word.ofNat 5),
          .transfer token executor friend (Word.ofNat 3), .payment executor friend (Word.ofNat 3)] ∧
      (w.balance friend).toNat ≤ (ended.balance friend).toNat ∧
        (w.storage token (holderKey friend)).toNat ≤ (ended.storage token (holderKey friend)).toNat := by
  intro caller executor friend token w ask pay records state ended
  have hbooked : w.executeBookings caller executor records state (Word.ofNat 4) =
      [.payment caller executor (Word.ofNat 4), .minting token executor (Word.ofNat 5),
        .transfer token executor friend (Word.ofNat 3), .payment executor friend (Word.ofNat 3)] := by
    decide +kernel
  have hcode : w.contracts.get? friend ≠ some .executor := by decide +kernel
  refine ⟨hbooked, (no_third_party_debit w friend hcode).2 caller executor records state _ token ?_ ?_ ?_⟩
  · decide
  · decide
  · rw [hbooked]
    decide +kernel

end World

end CallScript
