import CallScript.Proofs.Run.Stepping

/-!
# What the checks know about a command

The checks before a run follow the number of slots. Whenever that number is right, a command that
succeeds has passed its check and leaves the number right, and a command that passed its check fails
for no reason that the check covers.
-/

namespace CallScript

/-- Some data does not have the shape that was asked for. -/
def RunError.IsMismatch (e : RunError) : Prop :=
  ∃ found, e = .mismatch found

/-! ## Slots -/

namespace Slots

variable {s s' : Slots} {slot : UInt8} {e : RunError}

theorem ofList_ok {values : List Bytes} {slots : Slots} (h : ofList values = .ok slots) :
    slots.values = values := by
  unfold ofList at h
  split at h
  · cases h; rfl
  · cases h

theorem ofList_error {values : List Bytes} (h : ofList values = .error e) :
    e = .tooManySlots values.length ∧ maxSlots < values.length := by
  unfold ofList at h
  split at h
  · cases h
  · next hle => cases h; exact ⟨rfl, by omega⟩

theorem get_eq_ok {bytes : Bytes} (h : s.values[slot.toNat]? = some bytes) : s.get slot = .ok bytes := by
  simp only [get, h]

theorem get_ok {bytes : Bytes} (h : s.get slot = .ok bytes) : slot.toNat < s.size := by
  unfold get at h
  split at h
  · next hget => exact (List.getElem?_eq_some_iff.mp hget).1
  · cases h

theorem get_error (h : s.get slot = .error e) : e = .slotOutOfRange slot s.size ∧ s.size ≤ slot.toNat := by
  unfold get at h
  split at h
  · cases h
  · next hget => cases h; exact ⟨rfl, List.getElem?_eq_none_iff.mp hget⟩

theorem word_ok {w : Word} (h : s.word slot = .ok w) : slot.toNat < s.size := by
  obtain ⟨bytes, hget, -⟩ := Except.bind_eq_ok.mp h
  exact get_ok hget

theorem word_error (h : s.word slot = .error e) :
    e.IsMismatch ∨ e = .slotOutOfRange slot s.size ∧ s.size ≤ slot.toNat := by
  rcases Except.bind_eq_error.mp h with hget | ⟨bytes, -, hword⟩
  · exact .inr (get_error hget)
  · split at hword
    · cases hword
    · cases hword; exact .inl ⟨_, rfl⟩

theorem set_ok {value : Bytes} (h : s.set slot value = (.ok (), s')) :
    slot.toNat < s.size ∧ s'.size = s.size ∨
      slot.toNat = s.size ∧ s'.size = s.size + 1 ∧ s.size + 1 ≤ maxSlots := by
  unfold set at h
  split at h
  · next hlt => cases h; exact .inl ⟨hlt, by simp [size]⟩
  · split at h
    · next heq =>
      split at h
      · next hroom => cases h; exact .inr ⟨heq, by simp [size], hroom⟩
      · cases h
    · cases h

theorem set_error {value : Bytes} (h : s.set slot value = (.error e, s')) :
    e = .slotOutOfRange slot s.size ∧ s.size < slot.toNat ∨
      e = .tooManySlots (s.size + 1) ∧ slot.toNat = s.size ∧ maxSlots < s.size + 1 := by
  unfold set at h
  split at h
  · cases h
  · split at h
    · next heq =>
      split at h
      · cases h
      · next hroom => cases h; exact .inr ⟨rfl, heq, by omega⟩
    · next hne => cases h; exact .inl ⟨rfl, by omega⟩

theorem replace_error {values : List Bytes} (h : s.replace values = (.error e, s')) :
    e = .tooManySlots values.length ∧ maxSlots < values.length := by
  unfold replace at h
  split at h
  · cases h
  · next hle => cases h; exact ⟨rfl, by omega⟩

variable {α : Type} {write : Slots → α → Except RunError Unit × Slots} {read : Except RunError α}

theorem put_ok (h : s.put write read = (.ok (), s')) :
    ∃ value, read = .ok value ∧ write s value = (.ok (), s') := by
  cases read with
  | ok value => exact ⟨value, rfl, h⟩
  | error e => cases h

theorem put_error (h : s.put write read = (.error e, s')) :
    read = .error e ∨ ∃ value, read = .ok value ∧ write s value = (.error e, s') := by
  cases read with
  | ok value => exact .inr ⟨value, rfl, h⟩
  | error e' => cases h; exact .inl rfl

end Slots

/-! ## Arguments -/

namespace Preflight

/-- The slot that an argument reads exists when there are `count`. -/
def Readable (count : Nat) (arg : Arg) : Prop :=
  ∀ slot, arg.slot? = some slot → slot.toNat < count

theorem checkArgs_eq_ok {count : Nat} {args : List Arg} :
    checkArgs count args = .ok () ↔ ∀ arg ∈ args, Readable count arg := by
  induction args with
  | nil => simp [checkArgs]
  | cons arg rest ih =>
      rw [List.forall_mem_cons, checkArgs, ← ih, Readable]
      cases arg.slot? with
      | none => simp
      | some slot =>
          by_cases h : slot.toNat < count
          · simp [h]
          · simp [h]

theorem hasValueSlot_iff {c : Command} :
    hasValueSlot c = true ↔ ∃ slot rest, c.args = .static slot :: rest := by
  unfold hasValueSlot
  cases c.args with
  | nil => simp
  | cons arg rest => cases arg <;> simp [Arg.isStatic]

theorem readable_static {count : Nat} {slot : UInt8} :
    Readable count (.static slot) ↔ slot.toNat < count := by
  simp [Readable, Arg.slot?]

end Preflight

open Preflight

namespace Arg

variable {slots : Slots} {abiTail : Bool} {e : RunError}

theorem token_ok {arg : Arg} {token : Abi.Token} (h : arg.token slots abiTail = .ok token) :
    Readable slots.size arg := by
  intro slot hslot
  cases arg with
  | static k =>
      cases hslot
      obtain ⟨w, hword, -⟩ := Except.bind_eq_ok.mp h
      exact Slots.word_ok hword
  | dynamic k =>
      cases hslot
      obtain ⟨bytes, hget, -⟩ := Except.bind_eq_ok.mp h
      exact Slots.get_ok hget
  | state => cases hslot

theorem token_error {arg : Arg} (h : arg.token slots abiTail = .error e) :
    e.IsMismatch ∨ (∃ slot, e = .slotOutOfRange slot slots.size) ∧ ¬ Readable slots.size arg := by
  cases arg with
  | static k =>
      rcases Except.bind_eq_error.mp h with hword | ⟨w, -, hpure⟩
      · rcases Slots.word_error hword with hmismatch | ⟨he, hle⟩
        · exact .inl hmismatch
        · exact .inr ⟨⟨k, he⟩, fun hread => by have := hread k rfl; omega⟩
      · cases hpure
  | dynamic k =>
      rcases Except.bind_eq_error.mp h with hget | ⟨bytes, -, hpure⟩
      · obtain ⟨he, hle⟩ := Slots.get_error hget
        exact .inr ⟨⟨k, he⟩, fun hread => by have := hread k rfl; omega⟩
      · cases hpure
  | state => cases h

theorem tokens_ok {args : List Arg} {tokens : List Abi.Token}
    (h : Arg.tokens slots abiTail args = .ok tokens) : ∀ arg ∈ args, Readable slots.size arg := by
  induction args generalizing tokens with
  | nil => simp
  | cons arg rest ih =>
      obtain ⟨token, htoken, h⟩ := Except.bind_eq_ok.mp h
      obtain ⟨restTokens, hrest, -⟩ := Except.bind_eq_ok.mp h
      exact List.forall_mem_cons.mpr ⟨token_ok htoken, ih hrest⟩

theorem tokens_error {args : List Arg} (h : Arg.tokens slots abiTail args = .error e) :
    e.IsMismatch ∨ (∃ slot, e = .slotOutOfRange slot slots.size) ∧
      ∃ arg ∈ args, ¬ Readable slots.size arg := by
  induction args with
  | nil => cases h
  | cons arg rest ih =>
      rcases Except.bind_eq_error.mp h with htoken | ⟨token, -, h⟩
      · rcases token_error htoken with hmismatch | ⟨he, hnot⟩
        · exact .inl hmismatch
        · exact .inr ⟨he, arg, List.mem_cons_self .., hnot⟩
      · rcases Except.bind_eq_error.mp h with hrest | ⟨tokens, -, hpure⟩
        · rcases ih hrest with hmismatch | ⟨he, other, hmem, hnot⟩
          · exact .inl hmismatch
          · exact .inr ⟨he, other, List.mem_cons_of_mem _ hmem, hnot⟩
        · cases hpure

end Arg

/-! ## Commands -/

namespace Command

variable {index : Nat} {c : Command} {slots slots' : Slots} {e : RunError}

theorem splitValue_ok {value : Word} {args : List Arg}
    (h : c.splitValue index slots = .ok (value, args)) :
    (c.kind = .value ∧ ∃ slot, c.args = .static slot :: args ∧ slot.toNat < slots.size) ∨
      c.kind ≠ .value ∧ args = c.args := by
  unfold splitValue at h
  split at h
  · next hkind =>
    split at h
    · next slot rest hargs =>
      obtain ⟨w, hword, hpure⟩ := Except.bind_eq_ok.mp h
      cases hpure
      exact .inl ⟨hkind, slot, hargs, Slots.word_ok hword⟩
    · cases h
  · next hkind => cases h; exact .inr ⟨hkind, rfl⟩

theorem splitValue_error (h : c.splitValue index slots = .error e) :
    c.kind = .value ∧ (e.IsMismatch ∨ e = .missingValueSlot index ∧ hasValueSlot c = false ∨
      ∃ slot rest, c.args = .static slot :: rest ∧ e = .slotOutOfRange slot slots.size ∧
        slots.size ≤ slot.toNat) := by
  unfold splitValue at h
  split at h
  · next hkind =>
    refine ⟨hkind, ?_⟩
    split at h
    · next slot rest hargs =>
      rcases Except.bind_eq_error.mp h with hword | ⟨w, -, hpure⟩
      · rcases Slots.word_error hword with hmismatch | ⟨he, hle⟩
        · exact .inl hmismatch
        · exact .inr (.inr ⟨slot, rest, hargs, he, hle⟩)
      · cases hpure
    · next hargs =>
      cases h
      refine .inr (.inl ⟨rfl, Bool.eq_false_iff.mpr fun hvalue => ?_⟩)
      obtain ⟨slot, rest, heq⟩ := hasValueSlot_iff.mp hvalue
      exact hargs slot rest heq
  · cases h

/-- A command that builds its input has its value slot, and every slot that it reads exists. -/
theorem callData_ok {data : CallData} (h : c.callData index slots = .ok data) :
    (c.kind = .value → hasValueSlot c = true) ∧ ∀ arg ∈ readArgs c, Readable slots.size arg := by
  obtain ⟨⟨value, args⟩, hsplit, h⟩ := Except.bind_eq_ok.mp h
  obtain ⟨tokens, htokens, -⟩ := Except.bind_eq_ok.mp h
  have hargs : c.has .stateInput = false → ∀ arg ∈ args, Readable slots.size arg := by
    intro hflag
    simp only [inputTokens, hflag, Bool.false_eq_true, ↓reduceIte] at htokens
    exact Arg.tokens_ok htokens
  unfold readArgs
  rcases splitValue_ok hsplit with ⟨hkind, slot, hslot, hlt⟩ | ⟨hkind, rfl⟩
  · refine ⟨fun _ => hasValueSlot_iff.mpr ⟨slot, args, hslot⟩, ?_⟩
    cases hflag : c.has .stateInput with
    | true => simpa [hkind, hslot] using readable_static.mpr hlt
    | false => simpa [hslot] using ⟨readable_static.mpr hlt, hargs hflag⟩
  · refine ⟨fun hvalue => absurd hvalue hkind, ?_⟩
    cases hflag : c.has .stateInput with
    | true => simp [hkind]
    | false => simpa using hargs hflag

/-- A command whose input cannot be built reads data of the wrong shape, lacks its value slot, or reads
a slot that does not exist. -/
theorem callData_error (h : c.callData index slots = .error e) :
    e.IsMismatch ∨ e = .missingValueSlot index ∧ c.kind = .value ∧ hasValueSlot c = false ∨
      (∃ slot, e = .slotOutOfRange slot slots.size) ∧ ∃ arg ∈ readArgs c, ¬ Readable slots.size arg := by
  rcases Except.bind_eq_error.mp h with hsplit | ⟨⟨value, args⟩, hsplit, h⟩
  · obtain ⟨hkind, hmismatch | ⟨he, hvalue⟩ | ⟨slot, rest, hargs, he, hle⟩⟩ := splitValue_error hsplit
    · exact .inl hmismatch
    · exact .inr (.inl ⟨he, hkind, hvalue⟩)
    · refine .inr (.inr ⟨⟨slot, he⟩, .static slot, ?_, ?_⟩)
      · unfold readArgs
        split <;> simp [hargs]
      · rw [readable_static]
        omega
  · rcases Except.bind_eq_error.mp h with htokens | ⟨tokens, -, hpure⟩
    · cases hflag : c.has .stateInput with
      | true => simp [inputTokens, hflag] at htokens
      | false =>
          simp only [inputTokens, hflag, Bool.false_eq_true, ↓reduceIte] at htokens
          rcases Arg.tokens_error htokens with hmismatch | ⟨he, arg, hmem, hnot⟩
          · exact .inl hmismatch
          · refine .inr (.inr ⟨he, arg, ?_, hnot⟩)
            rcases splitValue_ok hsplit with ⟨-, slot, hslot, -⟩ | ⟨-, rfl⟩
            · simp [readArgs, hflag, hslot, hmem]
            · simpa [readArgs, hflag] using hmem
    · cases hpure

theorem slotValue_error {dynamic : Bool} {data : Bytes} (h : c.slotValue dynamic data = .error e) :
    e.IsMismatch := by
  unfold slotValue RunError.ofMismatch at h
  split at h
  · cases h
  · split at h
    · split at h
      · cases h
      · cases h; exact ⟨_, rfl⟩
    · split at h
      · cases h; exact ⟨_, rfl⟩
      · cases h

theorem countAfter_of_set {slot : UInt8} {value : Bytes} (h : slots.set slot value = (.ok (), slots')) :
    countAfter slots.size (.static slot) = .ok (some slots'.size) := by
  rcases Slots.set_ok h with ⟨hlt, hsize⟩ | ⟨heq, hsize, hle⟩
  · have hnot : ¬ slots.size < slot.toNat := by omega
    have hne : slot.toNat ≠ slots.size := by omega
    simp [countAfter, hnot, hne, hsize]
  · have hnot : ¬ maxSlots < slots.size + 1 := by omega
    simp [countAfter, heq, hnot, hsize]

theorem countAfter_of_set_error {slot : UInt8} {value : Bytes}
    (h : slots.set slot value = (.error e, slots')) :
    countAfter slots.size (.static slot) = .error e := by
  rcases Slots.set_error h with ⟨rfl, hlt⟩ | ⟨rfl, heq, hmany⟩
  · simp [countAfter, hlt]
  · simp [countAfter, heq, hmany]

/-- A command that keeps what came back leaves as many slots as the checks expect. -/
theorem keep_ok {data : Bytes} (h : c.keep slots data = (.ok (), slots')) :
    countAfter slots.size c.output =
      .ok (if c.output = .replaceState then none else some slots'.size) := by
  unfold keep at h
  cases houtput : c.output with
  | discard =>
      simp only [houtput] at h
      cases h
      rfl
  | replaceState => rfl
  | static slot =>
      simp only [houtput] at h
      obtain ⟨value, -, hset⟩ := Slots.put_ok h
      exact countAfter_of_set hset
  | dynamic slot =>
      simp only [houtput] at h
      obtain ⟨value, -, hset⟩ := Slots.put_ok h
      exact countAfter_of_set hset

/-- A command that cannot keep what came back was given data of the wrong shape, or its output does not
pass the checks, or the state that takes the place of all slots is too large. -/
theorem keep_error {data : Bytes} (h : c.keep slots data = (.error e, slots')) :
    e.IsMismatch ∨ countAfter slots.size c.output = .error e ∨
      c.output = .replaceState ∧ ∃ count, e = .tooManySlots count := by
  unfold keep at h
  cases houtput : c.output with
  | discard =>
      simp only [houtput] at h
      cases h
  | replaceState =>
      simp only [houtput] at h
      rcases Slots.put_error h with hread | ⟨values, -, hreplace⟩
      · unfold RunError.ofMismatch at hread
        split at hread
        · cases hread
        · cases hread; exact .inl ⟨_, rfl⟩
      · exact .inr (.inr ⟨rfl, _, (Slots.replace_error hreplace).1⟩)
  | static slot =>
      simp only [houtput] at h
      rcases Slots.put_error h with hvalue | ⟨value, -, hset⟩
      · exact .inl (slotValue_error hvalue)
      · exact .inr (.inl (countAfter_of_set_error hset))
  | dynamic slot =>
      simp only [houtput] at h
      rcases Slots.put_error h with hvalue | ⟨value, -, hset⟩
      · exact .inl (slotValue_error hvalue)
      · exact .inr (.inl (countAfter_of_set_error hset))

end Command

/-! ## The check of a command -/

namespace Preflight

/-- A number of slots that the checks know is right. -/
def Tracks (known : Option Nat) (slots : Slots) : Prop :=
  ∀ count, known = some count → count = slots.size

variable {index : Nat} {c : Command} {slots slots' : Slots} {known known' : Option Nat}

theorem checkCommand_ok (h : checkCommand index known c = .ok known') :
    (c.kind = .value → hasValueSlot c = true) ∧
      (known = none ∧ known' = none ∨ ∃ count, known = some count ∧
        (∀ arg ∈ readArgs c, Readable count arg) ∧ countAfter count c.output = .ok known') := by
  unfold checkCommand at h
  split at h
  · cases h
  · next hvalue =>
    refine ⟨fun hkind => by simpa [hkind] using hvalue, ?_⟩
    cases known with
    | none => cases h; exact .inl ⟨rfl, rfl⟩
    | some count =>
        obtain ⟨_, hargs, hcount⟩ := Except.bind_eq_ok.mp h
        exact .inr ⟨count, rfl, checkArgs_eq_ok.mp hargs, hcount⟩

/-- How the checks follow an output that goes into one slot. -/
theorem countAfter_slot (count : Nat) (slot : UInt8) :
    (∃ count', countAfter count (.static slot) = .ok (some count')) ∨
      countAfter count (.static slot) = .error (.slotOutOfRange slot count) ∨
      countAfter count (.static slot) = .error (.tooManySlots (count + 1)) := by
  simp only [countAfter]
  split
  · exact .inr (.inl rfl)
  · split
    · split
      · exact .inr (.inr rfl)
      · exact .inl ⟨_, rfl⟩
    · exact .inl ⟨_, rfl⟩

theorem countAfter_ok {count : Nat} {output : Output} (h : countAfter count output = .ok known') :
    known' = none ↔ output = .replaceState := by
  have hslot {slot : UInt8} (h : countAfter count (.static slot) = .ok known') : known' ≠ none := by
    rcases countAfter_slot count slot with ⟨count', hok⟩ | herror | herror
    · rw [hok] at h; cases h; simp
    · rw [herror] at h; cases h
    · rw [herror] at h; cases h
  cases output with
  | discard => cases h; simp
  | replaceState => cases h; simp
  | static slot => simpa using hslot h
  | dynamic slot => simpa using hslot h

theorem countAfter_error {count : Nat} {output : Output} {e : RunError}
    (h : countAfter count output = .error e) :
    (∃ slot, e = .slotOutOfRange slot count) ∨ e = .tooManySlots (count + 1) := by
  have hslot {slot : UInt8} (h : countAfter count (.static slot) = .error e) :
      (∃ slot, e = .slotOutOfRange slot count) ∨ e = .tooManySlots (count + 1) := by
    rcases countAfter_slot count slot with ⟨count', hok⟩ | herror | herror
    · rw [hok] at h; cases h
    · rw [herror] at h; cases h; exact .inl ⟨slot, rfl⟩
    · rw [herror] at h; cases h; exact .inr rfl
  cases output with
  | discard => cases h
  | replaceState => cases h
  | static slot => exact hslot h
  | dynamic slot => exact hslot h

/-- A command that succeeds has passed its check, and the number of slots stays right. -/
theorem Tracks.step {data : CallData} {returned : Bytes} (h : Tracks known slots)
    (hdata : c.callData index slots = .ok data) (hkeep : c.keep slots returned = (.ok (), slots')) :
    ∃ known', checkCommand index known c = .ok known' ∧ Tracks known' slots' := by
  obtain ⟨hvalue, hread⟩ := Command.callData_ok hdata
  have hguard : ¬ (c.kind = .value ∧ ¬ hasValueSlot c = true) := fun hbad => hbad.2 (hvalue hbad.1)
  unfold checkCommand
  rw [if_neg hguard]
  cases known with
  | none => exact ⟨none, rfl, fun _ hcount => by cases hcount⟩
  | some count =>
      cases h count rfl
      refine ⟨if c.output = .replaceState then none else some slots'.size, ?_, ?_⟩
      · simp only [checkArgs_eq_ok.mpr hread, Except.ok_bind, Command.keep_ok hkeep]
      · intro count hcount
        split at hcount
        · cases hcount
        · cases hcount; rfl

theorem checkCommand_eq_none (h : checkCommand index known c = .ok known') :
    known' = none ↔ known = none ∨ c.output = .replaceState := by
  obtain ⟨-, ⟨rfl, rfl⟩ | ⟨count, rfl, -, hcount⟩⟩ := checkCommand_ok h
  · simp
  · simpa using countAfter_ok hcount

/-- A command that has passed its check never lacks its value slot. As long as the number of slots is
known it refers to existing slots only, and it leaves too many only if it replaces them all. -/
theorem Tracks.step_error {σ : Type} {host : Host σ} {s s' : σ} {e : RunError} (h : Tracks known slots)
    (hcheck : checkCommand index known c = .ok known')
    (hstep : (Run.step index c slots).run host s = ((.error e, slots'), s')) :
    e.IsMismatch ∨ (∃ payload, e = .calleeFailure index payload) ∨
      (∃ slot count, e = .slotOutOfRange slot count) ∧ known = none ∨
      (∃ count, e = .tooManySlots count) ∧ (known = none ∨ c.output = .replaceState) := by
  obtain ⟨hvalue, hknown⟩ := checkCommand_ok hcheck
  -- Where the number of slots is known, a bad reference or an output too far contradicts the check.
  rcases (Run.step_error hstep).2 with hdata | hcallee | ⟨returned, hkeep⟩
  · rcases Command.callData_error hdata with hmismatch | ⟨-, hkind, hnone⟩ | ⟨⟨slot, he⟩, arg, hmem, hnot⟩
    · exact .inl hmismatch
    · simp [hvalue hkind] at hnone
    · rcases hknown with ⟨hunknown, -⟩ | ⟨count, hcount, hread, -⟩
      · exact .inr (.inr (.inl ⟨⟨slot, _, he⟩, hunknown⟩))
      · cases h count hcount
        exact absurd (hread arg hmem) hnot
  · exact .inr (.inl hcallee)
  · rcases Command.keep_error hkeep with hmismatch | hcount | ⟨hreplace, count, he⟩
    · exact .inl hmismatch
    · rcases hknown with ⟨hunknown, -⟩ | ⟨count, hsome, -, hafter⟩
      · rcases countAfter_error hcount with ⟨slot, he⟩ | he
        · exact .inr (.inr (.inl ⟨⟨slot, _, he⟩, hunknown⟩))
        · exact .inr (.inr (.inr ⟨⟨_, he⟩, .inl hunknown⟩))
      · cases h count hsome
        rw [hcount] at hafter
        cases hafter
    · exact .inr (.inr (.inr ⟨⟨count, he⟩, .inr hreplace⟩))

end Preflight

end CallScript
