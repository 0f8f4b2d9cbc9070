import CallScript.Proofs.Abi.RoundTrip
import CallScript.Proofs.Assembly.Canonical
import CallScript.Proofs.Run.Errors
import CallScript.Proofs.Run.Transcript

/-!
# Running what was assembled

The number of slots is limited where text is read, where an index byte is read, in the checks before a run
and in the run itself. The limits meet: what was assembled is refused only for a slot that does not exist,
and outgrows its slots only when a call returns too many at once.
-/

namespace CallScript

variable {e : RunError}

/-! ## Checks -/

namespace Preflight

theorem countAfter_error_of_lt {count : Nat} {slot : UInt8} (h : slot.toNat < maxSlots)
    (he : countAfter count (.static slot) = .error e) : e = .slotOutOfRange slot count := by
  simp only [countAfter] at he
  split at he
  · cases he
    rfl
  · split at he
    · next heq =>
      split at he
      · omega
      · cases he
    · cases he

theorem countAfter_error_of_inRange {count : Nat} {output : Output} (h : output.InRange)
    (he : countAfter count output = .error e) : ∃ slot, e = .slotOutOfRange slot count := by
  cases output with
  | discard => cases he
  | replaceState => cases he
  | static slot => exact ⟨slot, countAfter_error_of_lt h he⟩
  | dynamic slot => exact ⟨slot, countAfter_error_of_lt h he⟩

theorem checkCommand_error_of_canonical {index : Nat} {known : Option Nat} {c : Command} (h : c.Canonical)
    (he : checkCommand index known c = .error e) : ∃ slot available, e = .slotOutOfRange slot available := by
  unfold checkCommand at he
  split at he
  · next hvalue => exact absurd (hasValueSlot_iff.mpr (h.value_slot hvalue.1)) hvalue.2
  · cases known with
    | none => cases he
    | some count =>
        rcases Except.bind_eq_error.mp he with hargs | ⟨_, -, hcount⟩
        · obtain ⟨slot, rfl⟩ := checkArgs_error hargs
          exact ⟨slot, count, rfl⟩
        · obtain ⟨slot, rfl⟩ := countAfter_error_of_inRange (Output.inRange_ofByte h.static_output) hcount
          exact ⟨slot, count, rfl⟩

theorem checkFrom_error_of_canonical {index : Nat} {known : Option Nat} {commands : List Command}
    (h : ∀ c ∈ commands, c.Canonical) (he : checkFrom index known commands = .error e) :
    ∃ slot available, e = .slotOutOfRange slot available := by
  induction commands generalizing index known with
  | nil => cases he
  | cons c rest ih =>
      obtain ⟨hc, hrest⟩ := List.forall_mem_cons.mp h
      rcases Except.bind_eq_error.mp he with hcheck | ⟨known', -, hafter⟩
      · exact checkCommand_error_of_canonical hc hcheck
      · exact ih hrest hafter

end Preflight

/-! ## Commands -/

/-- A command that can only add slots that can be addressed outgrows them by replacing them all. -/
theorem Command.keep_tooManySlots_iff {c : Command} {slots : Slots} {returned : Bytes} {count : Nat}
    (h : c.output.InRange) :
    (c.keep slots returned).1 = .error (.tooManySlots count) ↔
      c.output = .replaceState ∧
        ∃ values, Abi.bytesArrayAt returned 0 = .ok values ∧ values.length = count ∧ maxSlots < count := by
  have hslot {slot : UInt8} {dynamic : Bool} (hlt : slot.toNat < maxSlots)
      (hput : (slots.put (·.set slot) (c.slotValue dynamic returned)).1 = .error (.tooManySlots count)) :
      False := by
    rcases Slots.put_error (Prod.ext hput rfl) with hvalue | ⟨value, -, hset⟩
    · obtain ⟨found, hfound⟩ := slotValue_error hvalue
      cases hfound
    · rcases Slots.set_error hset with ⟨hrange, -⟩ | ⟨-, hsize, hmany⟩
      · cases hrange
      · omega
  constructor
  · intro hkeep
    unfold keep at hkeep
    cases houtput : c.output with
    | discard =>
        simp only [houtput] at hkeep
        cases hkeep
    | replaceState =>
        simp only [houtput] at hkeep
        refine ⟨rfl, ?_⟩
        cases hread : Abi.bytesArrayAt returned 0 with
        | error found =>
            rw [hread] at hkeep
            cases hkeep
        | ok values =>
            rw [hread] at hkeep
            obtain ⟨hcount, hmany⟩ := Slots.replace_error (Prod.ext hkeep rfl)
            cases hcount
            exact ⟨values, rfl, rfl, hmany⟩
    | static slot =>
        simp only [houtput] at h hkeep
        exact (hslot h hkeep).elim
    | dynamic slot =>
        simp only [houtput] at h hkeep
        exact (hslot h hkeep).elim
  · rintro ⟨houtput, values, hread, rfl, hmany⟩
    simp only [keep, houtput, hread, RunError.ofMismatch, Slots.put, Slots.replace,
      dif_neg (Nat.not_le.mpr hmany)]

namespace Run

theorem Fails.tooManySlots {σ : Type} {host : Host σ} {i count calls : Nat} {c : Command} {slots : Slots}
    {s s' : σ} (hc : c.Canonical) (h : Fails host i c slots s (.tooManySlots count) calls s') :
    ∃ data returned values, c.output = .replaceState ∧ c.callData i slots = .ok data ∧
      host (message c data) s = (.success returned, s') ∧
      Abi.bytesArrayAt returned 0 = .ok values ∧ values.length = count ∧ maxSlots < count := by
  cases h with
  | building hdata =>
      rcases Command.callData_error hdata with ⟨found, hfound⟩ | ⟨hmissing, -⟩ | ⟨⟨slot, hslot⟩, -⟩
      · cases hfound
      · cases hmissing
      · cases hslot
  | @keeping data returned _ _ hdata hhost hkeep =>
      obtain ⟨houtput, values, hread, hcount, hmany⟩ :=
        (Command.keep_tooManySlots_iff (Output.inRange_ofByte hc.static_output)).mp hkeep
      exact ⟨data, returned, values, houtput, hdata, hhost, hread, hcount, hmany⟩

theorem ofRecords_of_script (script : Script) :
    ofRecords (script.commands.map (·.bytes)) script.state = load script.decoded script.state := by
  have hdecode : Command.decodeAll (script.commands.map (·.bytes)) = .ok script.decoded :=
    Command.decodeFrom_records script.commands 0
  rw [ofRecords, hdecode, Except.ok_bind]

theorem load_error_of_canonical {script : Script} (h : script.Canonical)
    (he : load script.decoded script.state = .error e) :
    ∃ slot available, e = .slotOutOfRange slot available := by
  have hslots : Slots.ofList script.state = .ok ⟨script.state, h.length_le⟩ := dif_pos h.length_le
  have hsize : ¬ script.state.length > maxSlots := Nat.not_lt.mpr h.length_le
  have hcommands : ∀ c ∈ script.decoded, c.Canonical := by
    intro c hc
    obtain ⟨r, hr, rfl⟩ := List.mem_map.mp hc
    exact h.commands r hr
  rw [load, hslots, Except.ok_bind] at he
  rcases Except.bind_eq_error.mp he with hcheck | ⟨_, -, hpure⟩
  · rw [Slots.size, Preflight.check, if_neg hsize] at hcheck
    exact Preflight.checkFrom_error_of_canonical hcommands hcheck
  · cases hpure

end Run

/-- A script that was assembled is accepted, or refused because it refers to a slot that does not exist.
When it is accepted and run with any host, it gets too many slots only at a command whose call has returned
more than 126 of them to take the place of all slots. -/
theorem Assembly.assembled_refused_for_slots_only {aliases : Aliases} {source : String} {script : Script}
    (h : assemble aliases source = .ok script) :
    (∀ e, Run.ofRecords (script.commands.map (·.bytes)) script.state = .error e →
      ∃ slot available, e = .slotOutOfRange slot available) ∧
    ∀ r, Run.ofRecords (script.commands.map (·.bytes)) script.state = .ok r →
      ∀ {σ : Type} (host : Host σ) (s : σ) (count : Nat),
        let ended := r.start.run host s
        ended.1.1 = .error (.tooManySlots count) →
        ∃ c data returned values s', script.decoded[ended.1.2.pc]? = some c ∧ c.output = .replaceState ∧
          Run.Arrives host script.decoded r.slots s ended.1.2.pc ended.1.2.slots s' ∧
          c.callData ended.1.2.pc ended.1.2.slots = .ok data ∧
          host ⟨c.kind, c.target, data.input, data.value⟩ s' = (.success returned, ended.2) ∧
          Abi.bytesArrayAt returned 0 = .ok values ∧ values.length = count ∧ 126 < count := by
  have hcanonical := canonical_of_assemble h
  rw [Run.ofRecords_of_script]
  refine ⟨fun e he => Run.load_error_of_canonical hcanonical he, ?_⟩
  intro r hr σ host s count ended hended
  obtain ⟨slots, -, -, rfl⟩ := Run.load_ok hr
  obtain ⟨-, ⟨slots', -, -, hdone⟩ | ⟨i, c, slots', s', e, calls, harrives, hc, hfails, -, hend⟩⟩ :=
    Run.calls_start script.decoded slots host s
  · rw [hdone] at hended
    cases hended
  · rw [hend] at hended
    cases hended
    obtain ⟨record, hrecord, rfl⟩ := List.mem_map.mp (List.mem_of_getElem? hc)
    obtain ⟨data, returned, values, houtput, hdata, hhost, hread, hcount, hmany⟩ :=
      hfails.tooManySlots (hcanonical.commands record hrecord)
    rw [hend]
    exact ⟨_, data, returned, values, s', hc, houtput, harrives, hdata, hhost, hread, hcount, hmany⟩

/-- A call that is accepted, and returns one slot more than there can be. -/
theorem Assembly.assembled_refused_for_slots_only_replaced :
    let aliases : Aliases := SortedMap.empty.insert "vault" (.ofNat 20 7)
    let call := Command.make .call .fallback (.ofNat 20 7) [] .replaceState 0
    let script : Script := ⟨[call.toRecord], []⟩
    let r : Run := { commands := [call], slots := ⟨[], Nat.zero_le _⟩ }
    let values : List Bytes := List.replicate 127 []
    let host : Host Nat := fun _ n => (.success (Abi.encode [.bytesArray values]), n + 1)
    assemble aliases "call @vault fallback -> state" = .ok script ∧
      Run.ofRecords (script.commands.map (·.bytes)) script.state = .ok r ∧
      (r.start.run host 0).1.1 = .error (.tooManySlots 127) ∧
      ∃ c, script.decoded[(r.start.run host 0).1.2.pc]? = some c ∧ c.output = .replaceState := by
  -- Before the names are introduced: closed terms can be evaluated.
  have hload : let call := Command.make .call .fallback (.ofNat 20 7) [] .replaceState 0
      Run.load [call] [] = .ok { commands := [call], slots := ⟨[], Nat.zero_le _⟩ } := rfl
  have hdata : let call := Command.make .call .fallback (.ofNat 20 7) [] .replaceState 0
      call.callData 0 ⟨[], Nat.zero_le _⟩ = .ok ⟨[], .zero⟩ := rfl
  intro aliases call script r values host
  have hsource : assemble aliases "call @vault fallback -> state" = .ok script := by
    have hread : (assemble aliases "call @vault fallback -> state").toOption = some script := by
      decide +kernel
    cases hresult : assemble aliases "call @vault fallback -> state" with
    | ok found => rw [hresult] at hread; exact congrArg Except.ok (Option.some.inj hread)
    | error e => rw [hresult] at hread; cases hread
  have hloaded : Run.ofRecords (script.commands.map (·.bytes)) script.state = .ok r := by
    rw [Run.ofRecords_of_script, show script.decoded = [call] by decide +kernel]
    exact hload
  have hkeep : (call.keep r.slots (Abi.encode [.bytesArray values])).1 = .error (.tooManySlots 127) := by
    have hfits : Abi.Addressable [.bytesArray values] := by
      rw [Abi.Addressable, Abi.encode_eq_layout]
      decide +kernel
    have hread : Abi.bytesArrayAt (Abi.encode [.bytesArray values]) 0 = .ok values :=
      Abi.bytesArrayAt_encode rfl hfits
    have hrange : call.output.InRange := by decide +kernel
    exact (Command.keep_tooManySlots_iff hrange).mpr ⟨rfl, values, hread, List.length_replicate, by decide⟩
  have hfails : Run.Fails host 0 call r.slots 0 (.tooManySlots 127) 1 1 := .keeping hdata rfl hkeep
  have harrives : Run.Arrives host [call] r.slots 0 0 r.slots 0 := .start
  have hmany : (r.start.run host 0).1.1 = .error (.tooManySlots 127) := by
    rw [harrives.start_of_fails rfl hfails]
  obtain ⟨c, -, -, -, -, hc, houtput, -⟩ :=
    (assembled_refused_for_slots_only hsource).2 r hloaded host 0 127 hmany
  exact ⟨hsource, hloaded, hmany, c, hc, houtput⟩

end CallScript
