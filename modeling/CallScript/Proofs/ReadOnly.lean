import CallScript.Dispatch
import CallScript.Proofs.Frames

/-!
# Calls that change nothing

All frames below a static one are static, and in a static frame code fails where it would write, emit or
pay. So whatever the code below a static call does, the caller finds store and events as they were.
-/

namespace CallScript

/-- Nothing but the journal may differ. -/
structure Session.Unchanged (s s' : Session) : Prop where
  store : s'.store = s.store
  events : s'.events = s.events

namespace Session.Unchanged

theorem refl (s : Session) : s.Unchanged s := ⟨rfl, rfl⟩

theorem trans {s s' s'' : Session} (h : s.Unchanged s') (h' : s'.Unchanged s'') : s.Unchanged s'' :=
  ⟨h'.store.trans h.store, h'.events.trans h.events⟩

/-- A call without writes and events of its own hands nothing down. -/
theorem adopt {s inner : Session} (h : s.opened.Unchanged inner) : s.Unchanged (s.adopt inner) := by
  constructor
  · change inner.store.commit = s.store
    rw [h.store]
    rfl
  · change s.events ++ inner.events = s.events
    rw [h.events]
    exact List.append_nil s.events

theorem abandon (s inner : Session) : s.Unchanged (s.abandon inner) := ⟨rfl, rfl⟩

end Session.Unchanged

/-- The calls of a host change nothing. -/
def Session.KeptBy (host : Host Session) : Prop :=
  ∀ (message : Message) (s : Session), s.Unchanged (host message s).2

/-! ## Static frames -/

theorem Frame.payFor_readOnly {parent : Frame} {message : Message} {store store' : Store}
    (h : message.kind = .static ∨ parent.isStatic = true)
    (hpaid : parent.payFor message store = (.ok (), store')) : store' = store := by
  unfold Frame.payFor at hpaid
  split at hpaid
  · next hvalue =>
    -- A call with a value is not a static one, so the frame that makes it is static.
    have hstatic : parent.isStatic = true := h.resolve_left fun hkind => by simp [hkind] at hvalue
    simp [hstatic] at hpaid
  · cases hpaid
    rfl

theorem Action.perform_readOnly {α : Type} {host : Host Session} {frame : Frame}
    (hframe : frame.isStatic = true) (hhost : Session.KeptBy host) (action : Action α) (s : Session) :
    s.Unchanged (action.perform host frame s).2 := by
  induction action generalizing s with
  | done result => exact .refl s
  | revert data => exact .refl s
  | load key next ih => exact ih _ s
  | store key value next ih =>
      simp only [perform, hframe, ↓reduceIte]
      exact .refl s
  | balance account next ih => exact ih _ s
  | emit name data next ih =>
      simp only [perform, hframe, ↓reduceIte]
      exact .refl s
  | call message next ih => exact (hhost message s).trans (ih _ _)
  | note line next ih =>
      have hnoted : s.Unchanged { s with journal := s.journal ++ [line] } := ⟨rfl, rfl⟩
      exact hnoted.trans (ih _)

/-! ## Nested calls -/

/-- A call changes nothing if it is static, or made from a static frame, and the calls made from static
frames below it change nothing. -/
theorem unchanged_dispatch_succ {contracts : Contracts} {room : Nat} {parent : Frame} {message : Message}
    (hbelow : ∀ frame : Frame, frame.isStatic = true → Session.KeptBy (dispatch contracts room frame))
    (h : message.kind = .static ∨ parent.isStatic = true) (s : Session) :
    s.Unchanged (dispatch contracts (room + 1) parent message s).2 := by
  have hframe := (parent.isStatic_child_iff message.kind message.target message.value).mpr h.symm
  simp only [dispatch]
  rcases hpaid : parent.payFor message s.opened.store with ⟨data | _, store⟩
  · exact .refl s
  · have hstore : store = s.opened.store := Frame.payFor_readOnly h hpaid
    subst hstore
    generalize parent.child message.kind message.target message.value = frame at hframe ⊢
    cases contracts.get? frame.code with
    | none => exact .adopt (.refl s.opened)
    | some contract =>
        have hcode := Action.perform_readOnly hframe (hbelow frame hframe)
          (contract.code.route frame message.input) s.opened
        simp only
        generalize Action.perform _ frame _ _ = ended at hcode ⊢
        rcases ended with ⟨data | data, inner⟩
        · exact .abandon s inner
        · exact .adopt hcode

theorem kept_dispatch (contracts : Contracts) (room : Nat) (parent : Frame)
    (hparent : parent.isStatic = true) : Session.KeptBy (dispatch contracts room parent) := by
  induction room generalizing parent with
  | zero => exact fun _ s => .refl s
  | succ room ih => exact fun _ s => unchanged_dispatch_succ ih (.inr hparent) s

/-- A static call, and any call from a static frame, leaves the store and the events exactly as they
were, however it ends and whatever is called below it. -/
theorem dispatch_readOnly (contracts : Contracts) (room : Nat) (parent : Frame) (message : Message)
    (s : Session) (h : message.kind = .static ∨ parent.isStatic = true) :
    (dispatch contracts room parent message s).2.store = s.store ∧
      (dispatch contracts room parent message s).2.events = s.events := by
  cases room with
  | zero => exact ⟨rfl, rfl⟩
  | succ room =>
      have hsame := unchanged_dispatch_succ (kept_dispatch contracts room) h s
      exact ⟨hsame.store, hsame.events⟩

/-- A static call to a token that would mint. -/
theorem dispatch_readOnly_mint :
    let token : Address := FixedBytes.ofNat 20 7
    let contracts : Contracts := SortedMap.empty.insert token .token
    let message : Message :=
      { kind := .static
        target := token
        input := (Selector.ofSignature "mint(address,uint256)").bytes ++
          Abi.encode [.word (Word.ofAddress token), .word (Word.ofNat 5)] }
    let s : Session := ⟨.empty, [], []⟩
    (dispatch contracts 1 (.root token token .zero) message s).1 =
        .failure (.reason "storage write in static context") ∧
      (dispatch contracts 1 (.root token token .zero) message s).2.store = s.store ∧
        (dispatch contracts 1 (.root token token .zero) message s).2.events = s.events := by
  intro token contracts message s
  have hfails : (dispatch contracts 1 (.root token token .zero) message s).1 =
      .failure (.reason "storage write in static context") := by decide +kernel
  exact ⟨hfails, dispatch_readOnly contracts 1 (.root token token .zero) message s (.inl rfl)⟩

end CallScript
