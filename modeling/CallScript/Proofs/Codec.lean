import CallScript.Proofs.Bytes
import CallScript.Proofs.Except
import CallScript.Script

/-!
# The binary form is exact

Decoding reads back every encoding, whatever stands behind it, and accepts nothing else. This holds of
integers and of byte strings with a fixed length, a list inherits it from its elements, and a script
from its two lists. So every script has one binary form, and no binary form begins another one.
-/

namespace CallScript

namespace Codec

/-- Decoding accepts the encodings of the values that fit, and only those. No encoding is empty. -/
structure Exact {α : Type} [Codec α] (Fits : α → Prop) : Prop where
  decode_iff : ∀ {input rest : Bytes} {value : α},
    decode input = .ok (value, rest) ↔ Fits value ∧ input = encode value ++ rest
  encode_pos : ∀ value : α, 0 < (encode value).length

/-! ## Integers and byte strings -/

theorem take_eq_ok {n : Nat} {input bytes rest : Bytes} :
    take n input = .ok (bytes, rest) ↔ bytes.length = n ∧ input = bytes ++ rest := by
  simp only [take, Except.ite_error_eq_ok, Except.ok.injEq, Prod.mk.injEq]
  constructor
  · rintro ⟨hlong, rfl, rfl⟩
    exact ⟨List.length_take_of_le (Nat.le_of_not_lt hlong), (List.take_append_drop n input).symm⟩
  · rintro ⟨rfl, rfl⟩
    simp

theorem exact_byte : Exact fun _ : UInt8 => True where
  decode_iff {input rest value} := by
    cases input with
    | nil => exact iff_of_false (by simp [decode]) (by simp [encode])
    | cons b tail => simp [decode, encode]
  encode_pos _ := Nat.zero_lt_one

theorem exact_integer : Exact fun _ : UInt64 => True where
  decode_iff {input rest value} := by
    simp only [decode, encode, true_and, Except.bind_eq_ok, Prod.exists, take_eq_ok, Except.pure_eq_ok,
      Except.ok.injEq, Prod.mk.injEq]
    constructor
    · rintro ⟨bytes, tail, ⟨hlength, rfl⟩, rfl, rfl⟩
      have hlt := Bytes.toNatLE_lt bytes
      rw [hlength] at hlt
      rw [UInt64.toNat_ofNat_of_lt' hlt, ← hlength, Bytes.ofNatLE_toNatLE]
    · rintro rfl
      have hvalue : value.toNat % 256 ^ 8 = value.toNat := Nat.mod_eq_of_lt value.toNat_lt
      refine ⟨Bytes.ofNatLE 8 value.toNat, rest, ⟨Bytes.length_ofNatLE .., rfl⟩, ?_, rfl⟩
      rw [Bytes.toNatLE_ofNatLE, hvalue, UInt64.ofNat_toNat]
  encode_pos value := by simp [encode]

theorem exact_array {n : Nat} (hn : 0 < n) : Exact fun _ : FixedBytes n => True where
  decode_iff {input rest value} := by
    simp only [decode, encode, true_and]
    split
    · constructor
      · intro h
        cases h
        exact (List.take_append_drop n input).symm
      · rintro rfl
        have hlength := value.length_eq
        simp [List.take_left' hlength, List.drop_left' hlength]
    · next hshort =>
      refine iff_of_false (by simp) ?_
      rintro rfl
      simp [value.length_eq] at hshort
  encode_pos value := by
    change 0 < value.bytes.length
    rw [value.length_eq]
    exact hn

/-! ## Lists -/

section Lists

variable {α : Type} [Codec α] {Fits : α → Prop}

theorem Exact.decodeMany_eq_ok (h : Exact Fits) {count : Nat} {input rest : Bytes} {items : List α} :
    decodeMany count input = .ok (items, rest) ↔
      items.length = count ∧ (∀ item ∈ items, Fits item) ∧ input = items.flatMap encode ++ rest := by
  induction count generalizing input items rest with
  | zero =>
      rw [decodeMany, List.length_eq_zero_iff]
      constructor
      · intro hdone
        cases hdone
        simp
      · rintro ⟨rfl, -, rfl⟩
        rfl
  | succ count ih =>
      simp only [decodeMany, Except.bind_eq_ok, Prod.exists, h.decode_iff, ih, Except.pure_eq_ok,
        Except.ok.injEq, Prod.mk.injEq]
      constructor
      · rintro ⟨item, tail, ⟨hitem, rfl⟩, items, last, ⟨rfl, hitems, rfl⟩, rfl, rfl⟩
        exact ⟨rfl, List.forall_mem_cons.mpr ⟨hitem, hitems⟩, by simp⟩
      · rintro ⟨hlength, hfits, rfl⟩
        cases items with
        | nil => cases hlength
        | cons item items =>
            obtain ⟨hitem, hitems⟩ := List.forall_mem_cons.mp hfits
            exact ⟨item, _, ⟨hitem, by simp⟩, items, rest, ⟨Nat.succ.inj hlength, hitems, rfl⟩, rfl, rfl⟩

theorem Exact.length_le (h : Exact Fits) (items : List α) :
    items.length ≤ (items.flatMap encode).length := by
  induction items with
  | nil => exact Nat.le_refl 0
  | cons item items ih =>
      have hitem := h.encode_pos item
      simp only [List.length_cons, List.flatMap_cons, List.length_append]
      omega

theorem decode_list_eq_ok {input rest : Bytes} {items : List α} :
    decode input = .ok (items, rest) ↔ ∃ (count : UInt64) (tail : Bytes),
      decode input = .ok (count, tail) ∧ count.toNat ≤ tail.length ∧
        decodeMany count.toNat tail = .ok (items, rest) := by
  change (decode input >>= fun counted : UInt64 × Bytes => do
    if counted.1.toNat > counted.2.length then throw .lengthOverflow
    decodeMany counted.1.toNat counted.2) = Except.ok (items, rest) ↔ _
  simp only [Except.bind_eq_ok, Prod.exists, Except.throw_eq_error, Except.error_bind,
    Except.ite_error_eq_ok, Nat.not_lt]

theorem Exact.list (h : Exact Fits) :
    Exact fun items : List α => items.length < UInt64.size ∧ ∀ item ∈ items, Fits item where
  decode_iff {input rest items} := by
    simp only [decode_list_eq_ok, exact_integer.decode_iff, h.decodeMany_eq_ok, true_and]
    constructor
    · rintro ⟨count, tail, rfl, -, hcount, hitems, rfl⟩
      refine ⟨⟨?_, hitems⟩, ?_⟩
      · rw [hcount]
        exact count.toNat_lt
      · change _ = encode (UInt64.ofNat items.length) ++ items.flatMap encode ++ rest
        rw [hcount, UInt64.ofNat_toNat, List.append_assoc]
    · rintro ⟨⟨hlength, hitems⟩, rfl⟩
      have hcount : (UInt64.ofNat items.length).toNat = items.length := UInt64.toNat_ofNat_of_lt' hlength
      refine ⟨UInt64.ofNat items.length, items.flatMap encode ++ rest, List.append_assoc .., ?_⟩
      -- Every element takes up at least one byte, so the count is not larger than what follows it.
      have hbytes := h.length_le items
      rw [hcount, List.length_append]
      exact ⟨by omega, rfl, hitems, rfl⟩
  encode_pos items := by
    have hcount := exact_integer.encode_pos (UInt64.ofNat items.length)
    change 0 < (encode (UInt64.ofNat items.length) ++ items.flatMap encode).length
    rw [List.length_append]
    omega

theorem Exact.append_inj (h : Exact Fits) {value value' : α} {rest rest' : Bytes} (hfits : Fits value)
    (hfits' : Fits value') (heq : encode value ++ rest = encode value' ++ rest') :
    value = value' ∧ rest = rest' := by
  have hread := h.decode_iff.mpr ⟨hfits, heq.symm⟩
  rw [h.decode_iff.mpr ⟨hfits', rfl⟩] at hread
  cases hread
  exact ⟨rfl, rfl⟩

end Lists

/-! ## All types of the format -/

/-- The types that have a binary form. -/
inductive Shape where
  | byte
  /-- An integer of 64 bits; counts are such integers. -/
  | integer
  | array (length : Nat) (nonempty : 0 < length)
  | list (items : Shape)

namespace Shape

def Value : Shape → Type
  | byte => UInt8
  | integer => UInt64
  | array length _ => FixedBytes length
  | list items => List items.Value

instance codec : (shape : Shape) → Codec shape.Value
  | byte => inferInstanceAs (Codec UInt8)
  | integer => inferInstanceAs (Codec UInt64)
  | array length _ => inferInstanceAs (Codec (FixedBytes length))
  | list items =>
    have := items.codec
    inferInstanceAs (Codec (List items.Value))

/-- The lengths of all lists in a value can be counted with 64 bits. -/
def Fits : (shape : Shape) → shape.Value → Prop
  | byte, _ => True
  | integer, _ => True
  | array _ _, _ => True
  | list items, values =>
    let values : List items.Value := values
    values.length < UInt64.size ∧ ∀ value ∈ values, items.Fits value

theorem exact : (shape : Shape) → Exact shape.Fits
  | byte => exact_byte
  | integer => exact_integer
  | array _ nonempty => exact_array nonempty
  | list items => items.exact.list

end Shape

end Codec

/-! ## Scripts -/

theorem ScriptError.ofCodec_eq_ok {α : Type} {x : Except CodecError α} {a : α} :
    ofCodec x = .ok a ↔ x = .ok a := by
  cases x <;> simp [ofCodec]

namespace Script

/-- Commands, slots and the bytes of every slot can be counted with 64 bits. -/
def Fits (s : Script) : Prop :=
  s.commands.length < UInt64.size ∧ s.state.length < UInt64.size ∧
    ∀ slot ∈ s.state, slot.length < UInt64.size

theorem exact_commands : Codec.Exact fun commands : List Record =>
    commands.length < UInt64.size ∧ ∀ record ∈ commands, True :=
  (Codec.exact_array (by decide)).list

theorem exact_state : Codec.Exact fun state : List Bytes =>
    state.length < UInt64.size ∧ ∀ slot ∈ state, slot.length < UInt64.size ∧ ∀ b ∈ slot, True :=
  Codec.exact_byte.list.list

theorem isBinary_iff {data : Bytes} : isBinary data ↔ magic ++ data.drop magic.length = data := by
  rw [isBinary, List.isPrefixOf_iff_prefix, List.prefix_iff_eq_append]

theorem ofBytes_eq_ok {data : Bytes} {s : Script} :
    ofBytes data = .ok s ↔ s.Fits ∧ data = s.toBytes := by
  have hversion : Codec.Exact fun _ : FixedBytes 3 => True := Codec.exact_array (by decide)
  simp only [ofBytes, Except.throw_eq_error, Except.error_bind, Except.ite_error_eq_ok, Except.bind_eq_ok,
    ScriptError.ofCodec_eq_ok, Prod.exists, hversion.decode_iff, exact_commands.decode_iff,
    exact_state.decode_iff, Except.pure_eq_ok, Except.ok.injEq, Decidable.not_not, isBinary_iff,
    List.isEmpty_iff, implies_true, and_true, true_and, ne_eq]
  constructor
  · rintro ⟨-, hmagic, -, -, hdrop, rfl, commands, -, ⟨hcommands, rfl⟩, state, -, ⟨hstate, rfl⟩, rfl, rfl⟩
    refine ⟨⟨hcommands, hstate⟩, ?_⟩
    rw [← hmagic, hdrop, toBytes, List.append_nil]
    simp only [List.append_assoc]
    rfl
  · rintro ⟨⟨hcommands, hstate⟩, rfl⟩
    have hfront : s.toBytes = magic ++ (version.bytes ++ (Codec.encode s.commands ++ Codec.encode s.state)) := by
      simp only [toBytes, List.append_assoc]
    have hdrop : s.toBytes.drop magic.length =
        version.bytes ++ (Codec.encode s.commands ++ Codec.encode s.state) := by
      rw [hfront, List.drop_left]
    refine ⟨?_, ?_, version, _, hdrop, rfl, s.commands, _, ⟨hcommands, rfl⟩, s.state, [], ⟨hstate, ?_⟩, rfl, rfl⟩
    · rw [hfront, List.length_append]
      omega
    · rw [hdrop, hfront]
    · rw [List.append_nil]

theorem eq_of_prefix_of_ofBytes {data longer : Bytes} {s s' : Script} (h : ofBytes data = .ok s)
    (h' : ofBytes longer = .ok s') (hextends : data <+: longer) : data = longer := by
  obtain ⟨⟨hcommands, hstate⟩, rfl⟩ := ofBytes_eq_ok.mp h
  obtain ⟨⟨hcommands', hstate'⟩, rfl⟩ := ofBytes_eq_ok.mp h'
  obtain ⟨extra, heq⟩ := hextends
  simp only [toBytes, List.append_assoc, List.append_cancel_left_eq] at heq
  -- Both lists are read off the same bytes, so they agree, and nothing is left for the rest.
  obtain ⟨hsame, htail⟩ := exact_commands.append_inj ⟨hcommands, by simp⟩ ⟨hcommands', by simp⟩ heq
  rw [← List.append_nil (Codec.encode s'.state)] at htail
  obtain ⟨hsame', -⟩ := exact_state.append_inj (by simpa using hstate) (by simpa using hstate') htail
  rw [toBytes, toBytes, hsame, hsame']

/-- Every script that fits is read back from its binary form, and every accepted byte string is the binary
form of what it is read as. So an accepted byte string neither begins another one nor continues it. The
same holds below, of the encodings of all types of the format and whatever follows them. -/
theorem binary_form_exact :
    (∀ s : Script, s.Fits → ofBytes s.toBytes = .ok s) ∧
    (∀ (data : Bytes) (s : Script), ofBytes data = .ok s → s.toBytes = data) ∧
    (∀ (data longer : Bytes) (s s' : Script), ofBytes data = .ok s → ofBytes longer = .ok s' →
      data <+: longer → data = longer) ∧
    ∀ shape : Codec.Shape,
      (∀ (value : shape.Value) (rest : Bytes), shape.Fits value →
        Codec.decode (Codec.encode value ++ rest) = .ok (value, rest)) ∧
      ∀ (input rest : Bytes) (value : shape.Value), Codec.decode input = .ok (value, rest) →
        input = Codec.encode value ++ rest := by
  refine ⟨fun s hfits => ?_, fun data s h => ?_, fun data longer s s' h h' => ?_, fun shape => ⟨?_, ?_⟩⟩
  · exact ofBytes_eq_ok.mpr ⟨hfits, rfl⟩
  · exact (ofBytes_eq_ok.mp h).2.symm
  · exact eq_of_prefix_of_ofBytes h h'
  · intro value rest hfits
    exact shape.exact.decode_iff.mpr ⟨hfits, rfl⟩
  · intro input rest value h
    exact (shape.exact.decode_iff.mp h).2

/-- A script with two slots, and its state with a byte behind it. -/
theorem binary_form_exact_two_slots :
    let s : Script := ⟨[FixedBytes.zero 32], [[], [7]]⟩
    let shape : Codec.Shape := .list (.list .byte)
    let state : shape.Value := s.state
    (s.Fits ∧ ofBytes s.toBytes = .ok s) ∧
      shape.Fits state ∧ Codec.decode (Codec.encode state ++ [9]) = .ok (state, [9]) := by
  intro s shape state
  have hscript : s.Fits := by simp [s, Fits, UInt64.size]
  have hstate : shape.Fits state :=
    ⟨hscript.2.1, fun slot hslot => ⟨hscript.2.2 slot hslot, fun _ _ => trivial⟩⟩
  obtain ⟨hread, -, -, hshapes⟩ := binary_form_exact
  exact ⟨⟨hscript, hread s hscript⟩, hstate, (hshapes shape).1 state [9] hstate⟩

end Script

end CallScript
