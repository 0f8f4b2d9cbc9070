import CallScript.Proofs.Effects
import CallScript.Proofs.Ledger

/-!
# What calls book

The bookings of a call are its payment, what its code books, and the bookings of the calls below it that
succeed, in the order in which they are made; a call that fails books nothing. These bookings are all that
a call does to the words of a store.
-/

namespace CallScript

/-! ## Bookings of a call -/

/-- The payment that goes with a call. -/
def Frame.payments (parent : Frame) (message : Message) : List Booking :=
  if message.kind = .value ∧ ¬ message.value.isZero then
    [.payment parent.address message.target message.value]
  else []

/-- The bookings of the calls that an action makes, where `below` tells those of each call. -/
def Action.bookings {α : Type} (host : Host Session) (below : Message → Session → List Booking)
    (frame : Frame) : Action α → Session → List Booking
  | .done _, _ => []
  | .revert _, _ => []
  | .load key next, s => (next (s.store.storage frame.address key)).bookings host below frame s
  | .store key value next, s =>
    if frame.isStatic then []
    else next.bookings host below frame
      { s with store := s.store.setStorage frame.address key value }
  | .balance account next, s => (next (s.store.balance account)).bookings host below frame s
  | .emit name data next, s =>
    if frame.isStatic then []
    else next.bookings host below frame { s with events := s.events ++ [⟨frame.address, name, data⟩] }
  | .call message next, s =>
    below message s ++ (next (host message s).1).bookings host below frame (host message s).2
  | .note line next, s => next.bookings host below frame { s with journal := s.journal ++ [line] }

/-- What a call of the token books when it succeeds. -/
def Contract.Token.bookings (frame : Frame) (input : Bytes) : List Booking :=
  match code.functionFor? input, Calldata.address (input.drop 4) 0, Calldata.word (input.drop 4) 1 with
  | some function, .ok receiver, .ok amount =>
    if function.signature = "transfer(address,uint256)" then
      [.transfer frame.address frame.sender receiver amount]
    else if function.signature = "mint(address,uint256)" then
      [.minting frame.address receiver amount]
    else []
  | _, _, _ => []

/-- What code books when it succeeds: the token what it is asked for, all other code what the calls
book that it makes. -/
def Contract.bookings (contract : Contract) (host : Host Session)
    (below : Message → Session → List Booking) (frame : Frame) (input : Bytes) (s : Session) :
    List Booking :=
  match contract with
  | .token => Token.bookings frame input
  | contract => (contract.code.route frame input).bookings host below frame s

/-- The bookings of a call from a frame, when `room` more nested calls are allowed. -/
def bookings (contracts : Contracts) : (room : Nat) → (parent : Frame) → Message → Session → List Booking
  | 0, _, _, _ => []
  | room + 1, parent, message, s =>
    match (dispatch contracts (room + 1) parent message s).1 with
    | .failure _ => []
    | .success _ =>
      let frame := parent.child message.kind message.target message.value
      let inner := { s.opened with store := (parent.payFor message s.opened.store).2 }
      parent.payments message ++
        match contracts.get? frame.code with
        | none => []
        | some contract =>
          contract.bookings (dispatch contracts room frame) (bookings contracts room frame) frame
            message.input inner

/-- The bookings of a call are all that it does to the words of the store. -/
def Posts (below : Message → Session → List Booking) (host : Host Session) : Prop :=
  ∀ (message : Message) (s : Session),
    Postings (below message s) s.store.word (host message s).2.store.word

/-! ## Actions that succeed -/

namespace Action

variable {α β : Type} {host : Host Session} {frame : Frame} {s s' : Session}

theorem perform_bind_eq_ok {action : Action α} {k : α → Action β} {b : β} :
    (action >>= k).perform host frame s = (.ok b, s') ↔
      ∃ a inner, action.perform host frame s = (.ok a, inner) ∧
        (k a).perform host frame inner = (.ok b, s') := by
  change (action.bind k).perform host frame s = _ ↔ _
  induction action generalizing s with
  | done result => simp [bind, perform]
  | revert data => simp [bind, perform]
  | load key next ih => exact ih _
  | store key value next ih =>
      simp only [bind, perform]
      split
      · simp
      · exact ih
  | balance account next ih => exact ih _
  | emit name data next ih =>
      simp only [bind, perform]
      split
      · simp
      · exact ih
  | call message next ih => exact ih _
  | note line next ih => exact ih

theorem perform_read_eq_ok {x : Except RevertData α} {a : α} :
    (liftM x : Action α).perform host frame s = (.ok a, s') ↔ x = .ok a ∧ s = s' := by
  change (ofExcept x).perform host frame s = _ ↔ _
  cases x <;> simp [ofExcept, perform]

theorem perform_orRevert_eq_ok {x : Option α} {reason : String} {a : α} :
    (orRevert x reason).perform host frame s = (.ok a, s') ↔ x = some a ∧ s = s' := by
  cases x <;> simp [orRevert, perform]

theorem perform_load {key : Word} {next : Word → Action α} :
    (load key next).perform host frame s =
      (next (s.store.storage frame.address key)).perform host frame s := rfl

theorem perform_store_eq_ok {key value : Word} {next : Action α} {a : α} :
    (store key value next).perform host frame s = (.ok a, s') ↔ frame.isStatic = false ∧
      next.perform host frame { s with store := s.store.setStorage frame.address key value } =
        (.ok a, s') := by
  rw [perform]
  split <;> simp [*]

theorem perform_emit_eq_ok {name : String} {data : Bytes} {next : Action α} {a : α} :
    (emit name data next).perform host frame s = (.ok a, s') ↔ frame.isStatic = false ∧
      next.perform host frame { s with events := s.events ++ [⟨frame.address, name, data⟩] } =
        (.ok a, s') := by
  rw [perform]
  split <;> simp [*]

end Action

/-! ## The token -/

namespace Contract.Token

open CallScript.Action

variable {host : Host Session} {frame : Frame} {s s' : Session} {args : Bytes}

theorem raised_credit {holder : Address} {amount : Word}
    (h : (credit holder amount).perform host frame s = (.ok (), s')) :
    Raised (Store.storageKey frame.address (holderKey holder)) amount s.store.word s'.store.word := by
  simp only [credit, perform_load, perform_bind_eq_ok, perform_orRevert_eq_ok, perform_store_eq_ok] at h
  obtain ⟨raised, _, ⟨hadd, rfl⟩, -, hdone⟩ := h
  cases hdone
  rw [Store.word_setStorage]
  exact .of_add? hadd

theorem posted_transfer {data : Bytes} (h : (transfer frame args).perform host frame s = (.ok data, s')) :
    ∃ receiver amount, Calldata.address args 0 = .ok receiver ∧ Calldata.word args 1 = .ok amount ∧
      (Booking.transfer frame.address frame.sender receiver amount).Posted s.store.word s'.store.word := by
  simp only [transfer, perform_bind_eq_ok, perform_read_eq_ok] at h
  obtain ⟨receiver, _, ⟨hreceiver, rfl⟩, amount, _, ⟨hamount, rfl⟩, h⟩ := h
  simp only [perform_load, perform_bind_eq_ok, perform_orRevert_eq_ok, perform_store_eq_ok,
    perform_emit_eq_ok] at h
  obtain ⟨remaining, _, ⟨hsub, rfl⟩, -, _, credited, hcredit, -, hdone⟩ := h
  have hraised := raised_credit hcredit
  cases hdone
  refine ⟨receiver, amount, hreceiver, hamount, _, ?_, hraised⟩
  rw [Store.word_setStorage]
  exact .of_sub? hsub

theorem posted_mint {data : Bytes} (h : (mint frame args).perform host frame s = (.ok data, s')) :
    ∃ receiver amount, Calldata.address args 0 = .ok receiver ∧ Calldata.word args 1 = .ok amount ∧
      (Booking.minting frame.address receiver amount).Posted s.store.word s'.store.word := by
  simp only [mint, perform_bind_eq_ok, perform_read_eq_ok] at h
  obtain ⟨receiver, _, ⟨hreceiver, rfl⟩, amount, _, ⟨hamount, rfl⟩, h⟩ := h
  simp only [perform_load, perform_bind_eq_ok, perform_orRevert_eq_ok, perform_store_eq_ok] at h
  obtain ⟨raised, _, ⟨hadd, rfl⟩, -, _, credited, hcredit, hdone⟩ := h
  have hraised := raised_credit hcredit
  cases hdone
  refine ⟨receiver, amount, hreceiver, hamount, _, ?_, hraised⟩
  rw [Store.word_setStorage]
  exact .of_add? hadd

theorem bookings_of_reading {input : Bytes} {function : Function}
    (hfind : code.functionFor? input = some function)
    (htransfer : function.signature ≠ "transfer(address,uint256)")
    (hmint : function.signature ≠ "mint(address,uint256)") : bookings frame input = [] := by
  rw [bookings, hfind]
  split
  · next found receiver amount hfound _ _ =>
    cases hfound
    rw [if_neg htransfer, if_neg hmint]
  · rfl

/-- The token books what it is asked for, and nothing when it is only asked for a balance or the supply. -/
theorem posts_route {input data : Bytes}
    (h : (code.route frame input).perform host frame s = (.ok data, s')) :
    Postings (bookings frame input) s.store.word s'.store.word := by
  unfold Code.route at h
  split at h
  · next function hfind =>
    have hmem : function ∈ code.functions := List.mem_of_find?_eq_some hfind
    simp only [code, List.mem_cons, List.not_mem_nil, or_false] at hmem
    rcases hmem with rfl | rfl | rfl | rfl
    · obtain ⟨receiver, amount, hreceiver, hamount, hposted⟩ := posted_transfer h
      simp only [bookings, hfind, hreceiver, hamount]
      exact .single hposted
    · rw [bookings_of_reading hfind (by decide) (by decide)]
      simp only [balanceOf, perform_bind_eq_ok, perform_read_eq_ok] at h
      obtain ⟨holder, _, ⟨hholder, rfl⟩, hdone⟩ := h
      cases hdone
      exact .nil _
    · rw [bookings_of_reading hfind (by decide) (by decide)]
      cases h
      exact .nil _
    · obtain ⟨receiver, amount, hreceiver, hamount, hposted⟩ := posted_mint h
      simp only [bookings, hfind, hreceiver, hamount]
      exact .single hposted
  · cases h

end Contract.Token

/-! ## Code that does not write -/

/-- An action that does not write leaves to the calls it makes what happens to the store. -/
theorem Action.Within.posts {α : Type} {allowed : Effect → Prop} {action : Action α}
    (h : action.Within allowed) (hwrite : ¬ allowed .write) {host : Host Session}
    {below : Message → Session → List Booking} (hhost : Posts below host) (frame : Frame) (s : Session) :
    Postings (action.bookings host below frame s) s.store.word
      (action.perform host frame s).2.store.word := by
  induction action generalizing s with
  | done result => exact .nil _
  | revert data => exact .nil _
  | load key next ih => exact ih _ (h _) s
  | store key value next ih => exact absurd h.1 hwrite
  | balance account next ih => exact ih _ (h _) s
  | emit name data next ih =>
      simp only [bookings, perform]
      split
      · exact .nil _
      · exact ih h { s with events := s.events ++ [⟨frame.address, name, data⟩] }
  | call message next ih => exact (hhost message s).append (ih _ (h.2 _) _)
  | note line next ih => exact ih h { s with journal := s.journal ++ [line] }

namespace Contract

theorem posts_code {contract : Contract} {host : Host Session} {below : Message → Session → List Booking}
    (hhost : Posts below host) {frame : Frame} {input data : Bytes} {s s' : Session}
    (h : (contract.code.route frame input).perform host frame s = (.ok data, s')) :
    Postings (contract.bookings host below frame input s) s.store.word s'.store.word := by
  unfold Contract.bookings
  split
  · exact Token.posts_route h
  · next htoken =>
    have hposts := (contract.within_route frame input).posts (mt effects_write.mp htoken) hhost frame s
    rw [h] at hposts
    exact hposts

end Contract

/-! ## Nested calls -/

theorem Frame.posts_payFor {parent : Frame} {message : Message} {store store' : Store}
    (h : parent.payFor message store = (.ok (), store')) :
    Postings (parent.payments message) store.word store'.word := by
  unfold Frame.payFor at h
  unfold Frame.payments
  split at h
  · next hvalue =>
    rw [if_pos hvalue]
    split at h
    · cases h
    · exact .single (Store.posted_transfer h)
  · next hfree =>
    rw [if_neg hfree]
    cases h
    exact .nil _

theorem Session.word_adopt (s inner : Session) : (s.adopt inner).store.word = inner.store.word :=
  Store.word_commit inner.store

theorem posts_dispatch (contracts : Contracts) (room : Nat) (parent : Frame) :
    Posts (bookings contracts room parent) (dispatch contracts room parent) := by
  induction room generalizing parent with
  | zero => exact fun _ s => .nil _
  | succ room ih =>
      intro message s
      simp only [bookings, dispatch]
      generalize parent.child message.kind message.target message.value = frame
      rcases hpaid : parent.payFor message s.opened.store with ⟨data | _, store⟩
      · exact .nil _
      · have hpayment := Frame.posts_payFor hpaid
        simp only
        cases contracts.get? frame.code with
        | none =>
            simp only [Session.word_adopt, List.append_nil]
            exact hpayment
        | some contract =>
            simp only
            -- The code goes on where the payment has left the store.
            generalize hinner : { s.opened with store } = inner
            have hstore : store.word = inner.store.word := by rw [← hinner]
            rcases hcode : (contract.code.route frame message.input).perform
              (dispatch contracts room frame) frame inner with ⟨data | data, ended⟩
            · exact .nil _
            · simp only [Session.word_adopt]
              rw [hstore] at hpayment
              exact hpayment.append (Contract.posts_code (ih frame) hcode)

/-! ## Worlds -/

namespace World

/-- The bookings of a call from outside. -/
def callBookings (w : World) (caller : Address) (message : Message) : List Booking :=
  bookings w.contracts maxDepth (.root caller caller .zero) message w.session

/-- The bookings of a run: its payment, and what the calls book that it makes. A run that fails books
nothing. -/
def executeBookings (w : World) (caller executor : Address) (records state : List Bytes) (value : Word) :
    List Booking :=
  match payForRun w.session.opened.store caller executor value,
    (w.execute caller executor records state value).1 with
  | .ok store, .ok _ =>
    let frame := Frame.root caller executor value
    (if value.isZero then [] else [.payment caller executor value]) ++
      (Action.ofDialogue (CallScript.execute records state)).bookings (dispatch w.contracts maxDepth frame)
        (bookings w.contracts maxDepth frame) frame { w.session.opened with store }
  | _, _ => []

theorem posts_call (w : World) (caller : Address) (message : Message) :
    Postings (w.callBookings caller message) w.store.word (w.call caller message).2.store.word :=
  posts_dispatch w.contracts maxDepth (.root caller caller .zero) message w.session

theorem posts_payForRun {store store' : Store} {caller executor : Address} {value : Word}
    (h : payForRun store caller executor value = .ok store') :
    Postings (if value.isZero then [] else [.payment caller executor value]) store.word store'.word := by
  unfold payForRun at h
  split at h
  · next hzero =>
    rw [if_pos hzero]
    cases h
    exact .nil _
  · next hvalue =>
    rw [if_neg hvalue]
    split at h
    · next hmoved =>
      cases h
      exact .single (Store.posted_transfer hmoved)
    · cases h

theorem posts_execute (w : World) (caller executor : Address) (records state : List Bytes)
    (value : Word) :
    Postings (w.executeBookings caller executor records state value) w.store.word
      (w.execute caller executor records state value).2.store.word := by
  simp only [executeBookings, World.execute]
  rcases hpaid : payForRun w.session.opened.store caller executor value with e | store
  · exact .nil _
  · have hpayment := posts_payForRun hpaid
    have hwithin : (Action.ofDialogue (CallScript.execute records state)).Within Contract.executor.effects :=
      Action.within_ofDialogue trivial _
    have hcalls := hwithin.posts (mt Contract.effects_write.mp (by decide))
      (posts_dispatch w.contracts maxDepth (.root caller executor value)) (.root caller executor value)
      { w.session.opened with store }
    simp only [Action.perform_ofDialogue] at hcalls
    simp only [dispatchFrom, Nat.sub_zero]
    generalize Dialogue.hold _ _ _ = ended at hcalls ⊢
    rcases ended with ⟨e | values, inner⟩
    · exact .nil _
    · have hworld : (w.session.adopt inner).store.word = inner.store.word := Session.word_adopt ..
      simp only [resume, hworld]
      exact hpayment.append hcalls

end World

end CallScript
