import CallScript.Proofs.Abi.Splicing
import CallScript.Proofs.Run.Composition
import CallScript.Proofs.Run.Transcript
import Mathlib.Algebra.Order.BigOperators.Group.List

/-!
# A call that is answered with its own arguments

What a command lays out for its call and what it takes out of the answer are two sides of one format. With a
host that answers every call with the arguments it was given, a command moves a slot, or the whole state, out
and back in.
-/

namespace CallScript

/-! ## Sizes -/

namespace Abi

theorem length_bytesTail_lt (content : Bytes) : (bytesTail content).length < content.length + 64 := by
  obtain ⟨zeros, hzeros, -, hpad⟩ := pad_eq content
  rw [bytesTail, hpad]
  simp
  omega

theorem length_tails_le (items : List Bytes) :
    (tails (itemParts items)).length ≤ (items.map List.length).sum + items.length * 64 := by
  induction items with
  | nil => simp [itemParts, tails]
  | cons item items ih =>
      have hitem := length_bytesTail_lt item
      rw [itemParts] at ih
      simp only [itemParts, List.map_cons, tails, List.length_append, List.sum_cons, List.length_cons]
      omega

theorem addressable_bytes {content : Bytes} (h : content.length < 2 ^ 63) : Addressable [.bytes content] := by
  have htail := length_bytesTail_lt content
  rw [Addressable, encode_singleton rfl, UInt64.size]
  simp
  omega

theorem addressable_bytesArray {items : List Bytes} (hcount : items.length ≤ maxSlots)
    (hsize : (items.map List.length).sum < 2 ^ 63) : Addressable [.bytesArray items] := by
  have htails := length_tails_le items
  have hlayout : (layout (itemParts items)).length =
      items.length * wordSize + (tails (itemParts items)).length := by
    simp [layout, itemParts]
  rw [maxSlots] at hcount
  rw [wordSize] at hlayout
  rw [Addressable, encode_singleton rfl, UInt64.size]
  simp [hlayout]
  omega

theorem tailOf_encode_tail {content : Bytes} (hcontent : content ≠ []) (hsize : content.length < 2 ^ 63) :
    tailOf (encode [.tail content]) = .ok (pad content) := by
  obtain ⟨zeros, hzeros, -, hpad⟩ := pad_eq content
  have hfits : Addressable [.tail content] := by
    rw [Addressable, encode_singleton rfl, hpad, UInt64.size]
    simp
    omega
  exact tailOf_encode rfl (wordSize_le_pad hcontent) hfits

end Abi

/-! ## Slots -/

theorem Slots.set_of_le {slots : Slots} {slot : UInt8} (h : slot.toNat ≤ slots.size)
    (hmax : slot.toNat < maxSlots) (value : Bytes) :
    ∃ slots', slots.set slot value = (.ok (), slots') ∧ slots'.values[slot.toNat]? = some value := by
  unfold set
  by_cases hlt : slot.toNat < slots.size
  · rw [if_pos hlt]
    exact ⟨_, rfl, List.getElem?_set_self hlt⟩
  · have heq : slot.toNat = slots.size := by omega
    have hroom : slots.size + 1 ≤ maxSlots := by omega
    rw [if_neg hlt, if_pos heq, dif_pos hroom]
    exact ⟨_, rfl, by simp [heq, size]⟩

theorem Slots.word_of_length {slots : Slots} {slot : UInt8} {content : Bytes}
    (h : slots.values[slot.toNat]? = some content) (hlength : content.length = 32) :
    slots.word slot = .ok ⟨content, hlength⟩ := by
  have hword : Word.ofBytes? content = some ⟨content, hlength⟩ := dif_pos hlength
  simp [word, get_eq_ok h, hword]

/-! ## Echoes -/

/-- Answers every call with its input behind the first `front` bytes. -/
def Host.Echoes {σ : Type} (host : Host σ) (front : Nat) : Prop :=
  ∀ (message : Message) (s : σ), (host message s).1 = .success (message.input.drop front)

namespace Command

variable {σ : Type} {host : Host σ} {c : Command} {slots slots' : Slots} {tokens : List Abi.Token} {s : σ}

theorem run_echo (hecho : host.Echoes c.inputFront.length) (hkind : c.kind ≠ .value)
    (htokens : c.inputTokens slots c.args = .ok tokens)
    (hkeep : c.keep slots (Abi.encode tokens) = (.ok (), slots')) :
    ((execute [c.toRecord.bytes] slots.values).run host s).1 = .ok slots'.values := by
  have hsplit : c.splitValue 0 slots = .ok (.zero, c.args) := by
    unfold splitValue
    split
    · contradiction
    · rfl
  have hdata : c.callData 0 slots = .ok ⟨Abi.encodeAfter c.inputFront tokens, .zero⟩ := by
    simp [callData, hsplit, htokens]
  rw [Abi.encodeAfter_eq] at hdata
  have hanswer := hecho (Run.message c ⟨c.inputFront ++ Abi.encode tokens, .zero⟩) s
  simp only [Run.message, List.drop_left] at hanswer
  have hcompletes : Run.Completes host [c.toRecord.bytes] slots s slots' _ _ :=
    .cons (decode_toRecord 0 c) hdata (Prod.ext hanswer rfl) hkeep .nil
  rw [(Run.execute_of_completes hcompletes).1]

/-- Run on its own, the command leaves `value` in slot `j` and all other slots as they were. -/
def Puts (c : Command) (host : Host σ) (s : σ) (state : List Bytes) (j : UInt8) (value : Bytes) : Prop :=
  ∃ values, ((execute [c.toRecord.bytes] state).run host s).1 = .ok values ∧
    values[j.toNat]? = some value ∧ ∀ k, k ≠ j.toNat → values[k]? = state[k]?

theorem puts_of_echo {j : UInt8} {value : Bytes} (hecho : host.Echoes c.inputFront.length)
    (hkind : c.kind ≠ .value) (hj : j.toNat ≤ slots.size) (hmax : j.toNat < maxSlots)
    (htokens : c.inputTokens slots c.args = .ok tokens)
    (hkeep : c.keep slots (Abi.encode tokens) = slots.set j value) :
    c.Puts host s slots.values j value := by
  obtain ⟨slots', hset, hvalue⟩ := Slots.set_of_le hj hmax value
  rw [hset] at hkeep
  exact ⟨slots'.values, run_echo hecho hkind htokens hkeep, hvalue, Slots.getElem?_set hset⟩

theorem keep_bytesArray (houtput : c.output = .replaceState)
    (hsize : (slots.values.map List.length).sum < 2 ^ 63) :
    c.keep slots (Abi.encode [.bytesArray slots.values]) = (.ok (), slots) := by
  have hread : Abi.bytesArrayAt (Abi.encode [.bytesArray slots.values]) 0 = .ok slots.values :=
    Abi.bytesArrayAt_encode rfl (Abi.addressable_bytesArray slots.length_le hsize)
  simp [keep, houtput, hread, RunError.ofMismatch, Slots.put, Slots.replace, slots.length_le]

theorem inputTokens_singleton {arg : Arg} {token : Abi.Token} (hinput : c.has .stateInput = false)
    (hargs : c.args = [arg]) (htoken : arg.token slots (c.has .abiTail) = .ok token) :
    c.inputTokens slots c.args = .ok [token] := by
  simp [inputTokens, hinput, hargs, Arg.tokens, htoken]

section Slot

variable {i j : UInt8} {content : Bytes} (hecho : host.Echoes c.inputFront.length) (hkind : c.kind ≠ .value)
  (htuple : c.has .tuple = false) (hinput : c.has .stateInput = false)
  (hcontent : slots.values[i.toNat]? = some content) (hj : j.toNat ≤ slots.size) (hmax : j.toNat < maxSlots)

include hecho hkind htuple hinput hcontent hj hmax

theorem puts_static (hargs : c.args = [.static i]) (houtput : c.output = .static j)
    (hlength : content.length = 32) : c.Puts host s slots.values j content := by
  have htokens : c.inputTokens slots c.args = .ok [.word ⟨content, hlength⟩] :=
    inputTokens_singleton hinput hargs (by simp [Arg.token, Slots.word_of_length hcontent hlength])
  refine puts_of_echo hecho hkind hj hmax htokens ?_
  have hencode : Abi.encode [.word ⟨content, hlength⟩] = content := by
    simp [Abi.encode_eq_layout, Abi.layout, Abi.Token.part, Abi.heads, Abi.tails]
  simp [keep, houtput, Slots.put, slotValue, htuple, hencode, hlength, List.take_of_length_le]

theorem puts_dynamic (hargs : c.args = [.dynamic i]) (houtput : c.output = .dynamic j)
    (htail : c.has .abiTail = false) (hsize : content.length < 2 ^ 63) :
    c.Puts host s slots.values j content := by
  have htokens : c.inputTokens slots c.args = .ok [.bytes content] :=
    inputTokens_singleton hinput hargs (by simp [Arg.token, Slots.get_eq_ok hcontent, htail])
  refine puts_of_echo hecho hkind hj hmax htokens ?_
  have hread : Abi.bytesAt (Abi.encode [.bytes content]) 0 = .ok content :=
    Abi.bytesAt_encode rfl (Abi.addressable_bytes hsize)
  simp [keep, houtput, Slots.put, slotValue, htuple, htail, hread, RunError.ofMismatch]

theorem puts_tail (hargs : c.args = [.dynamic i]) (houtput : c.output = .dynamic j)
    (htail : c.has .abiTail = true) (hsize : content.length < 2 ^ 63) (hne : content ≠ []) :
    c.Puts host s slots.values j (Abi.pad content) := by
  have htokens : c.inputTokens slots c.args = .ok [.tail content] :=
    inputTokens_singleton hinput hargs (by simp [Arg.token, Slots.get_eq_ok hcontent, htail])
  refine puts_of_echo hecho hkind hj hmax htokens ?_
  simp [keep, houtput, Slots.put, slotValue, htuple, htail, Abi.tailOf_encode_tail hne hsize,
    RunError.ofMismatch]

end Slot

/-- With a host that answers every call with its arguments, a word and a byte string arrive in another slot as
they are, a tail arrives with zeros up to a whole word, and the whole state is reproduced. -/
theorem echo_roundTrip (c : Command) (host : Host σ) (s : σ) (state : List Bytes)
    (hcount : state.length ≤ 126) (hsize : (state.map List.length).sum < 2 ^ 63) (hkind : c.kind ≠ .value)
    (htuple : c.has .tuple = false) (hecho : host.Echoes (if c.isFallback then 0 else 4)) :
    (∀ (i j : UInt8) (content : Bytes), c.has .stateInput = false → state[i.toNat]? = some content →
        j.toNat ≤ state.length → j.toNat < 126 →
      (c.args = [.static i] → c.output = .static j → content.length = 32 → c.Puts host s state j content) ∧
      (c.args = [.dynamic i] → c.output = .dynamic j → c.has .abiTail = false →
        c.Puts host s state j content) ∧
      (c.args = [.dynamic i] → c.output = .dynamic j → c.has .abiTail = true → content ≠ [] →
        ∃ zeros < 32, 32 ∣ content.length + zeros ∧
          c.Puts host s state j (content ++ List.replicate zeros 0))) ∧
    (c.output = .replaceState → c.args = [.state] ∨ c.has .stateInput = true →
      ((execute [c.toRecord.bytes] state).run host s).1 = .ok state) := by
  obtain ⟨slots, rfl⟩ : ∃ slots : Slots, slots.values = state := ⟨⟨state, hcount⟩, rfl⟩
  have hfront : c.inputFront.length = if c.isFallback then 0 else 4 := by
    unfold inputFront
    split
    · rfl
    · exact c.selector.length_eq
  rw [← hfront] at hecho
  refine ⟨fun i j content hinput hcontent hj hmax => ?_, fun houtput hstate => ?_⟩
  · have hlength : content.length < 2 ^ 63 :=
      Nat.lt_of_le_of_lt (List.le_sum_of_mem (List.mem_map_of_mem (List.mem_of_getElem? hcontent))) hsize
    refine ⟨puts_static hecho hkind htuple hinput hcontent hj hmax,
      fun hargs houtput htail => ?_, fun hargs houtput htail hne => ?_⟩
    · exact puts_dynamic hecho hkind htuple hinput hcontent hj hmax hargs houtput htail hlength
    · obtain ⟨zeros, hzeros, hdvd, hpad⟩ := Abi.pad_eq content
      refine ⟨zeros, hzeros, hdvd, ?_⟩
      rw [← hpad]
      exact puts_tail hecho hkind htuple hinput hcontent hj hmax hargs houtput htail hlength hne
  · have htokens : c.inputTokens slots c.args = .ok [.bytesArray slots.values] := by
      by_cases hinput : c.has .stateInput
      · simp [inputTokens, hinput]
      · have hargs : c.args = [.state] := hstate.resolve_right hinput
        exact inputTokens_singleton (by simpa using hinput) hargs rfl
    exact run_echo hecho hkind htokens (keep_bytesArray houtput hsize)

/-- A tail of 33 bytes that is appended to the state, and a state with an empty slot that is reproduced without
a selector. -/
theorem echo_roundTrip_appended :
    let tail := make .static ⟨[1, 2, 3, 4], rfl⟩ (.zero 20) [.dynamic 0] (.dynamic 2) Flag.abiTail.bit
    let whole := make .delegate .fallback (.zero 20) [.state] .replaceState 0
    let host (front : Nat) : Host Unit := fun message s => (.success (message.input.drop front), s)
    let state : List Bytes := [List.replicate 33 7, []]
    tail.kind ≠ .value ∧ tail.has .tuple = false ∧ tail.args = [.dynamic 0] ∧ tail.output = .dynamic 2 ∧
      (∃ zeros < 32, 32 ∣ 33 + zeros ∧
        tail.Puts (host 4) () state 2 (List.replicate 33 7 ++ List.replicate zeros 0)) ∧
      whole.args = [.state] ∧
      ((execute [whole.toRecord.bytes] state).run (host 0) ()).1 = .ok state := by
  intro tail whole host state
  have hargs : tail.args = [.dynamic 0] := by decide
  have hstate : whole.args = [.state] := by decide
  have htail := echo_roundTrip tail (host 4) () state (by decide) (by decide) (by decide) (by decide)
    fun _ _ => rfl
  have hwhole := echo_roundTrip whole (host 0) () state (by decide) (by decide) (by decide) (by decide)
    fun _ _ => rfl
  obtain ⟨-, -, hputs⟩ := htail.1 0 2 (List.replicate 33 7) (by decide) rfl (by decide) (by decide)
  exact ⟨by decide, by decide, hargs, by decide, hputs hargs (by decide) (by decide) (by decide), hstate,
    hwhole.2 (by decide) (.inl hstate)⟩

end Command

end CallScript
