import CallScript.Abi.Reader
import CallScript.Proofs.Abi.Layout
import CallScript.Proofs.Except

/-!
# Reading back a call buffer

What was laid out in a buffer is read back from it, as long as every position in the buffer fits into
64 bits.
-/

namespace CallScript.Abi

/-- Every position in the buffer of these values fits into 64 bits. -/
def Addressable (tokens : List Token) : Prop :=
  (encode tokens).length < UInt64.size

instance (tokens : List Token) : Decidable (Addressable tokens) :=
  inferInstanceAs (Decidable (_ < _))

/-! ## Regions -/

variable {shape : Shape} {data piece : Bytes} {start : UInt64}

theorem checkedAdd_eq {a b : UInt64} (h : a.toNat + b.toNat < UInt64.size) :
    checkedAdd a b = some (a + b) := if_pos h

theorem toNat_add_of_lt {a b : UInt64} (h : a.toNat + b.toNat < UInt64.size) :
    (a + b).toNat = a.toNat + b.toNat := by
  rw [UInt64.toNat_add]
  exact Nat.mod_eq_of_lt h

theorem toNat_mul_of_lt {a b : UInt64} (h : a.toNat * b.toNat < UInt64.size) :
    (a * b).toNat = a.toNat * b.toNat := by
  rw [UInt64.toNat_mul]
  exact Nat.mod_eq_of_lt h

theorem region_of_standsAt {length : UInt64} (h : data.StandsAt start.toNat piece)
    (hlength : length.toNat = piece.length) (hdata : data.length < UInt64.size) :
    region shape data start length = .ok piece := by
  have hstop := h.stop_le
  have hfits : start.toNat + length.toNat < UInt64.size := by omega
  have hslice : data.slice? start.toNat (start + length).toNat = some piece := by
    rw [toNat_add_of_lt hfits, hlength]
    exact h.slice?
  simp only [region, checkedAdd_eq hfits, representable, Except.ok_bind, hslice, Except.pure_eq_ok]

theorem wordAtOffset_of_standsAt {w : Word} (h : data.StandsAt start.toNat w.bytes)
    (hdata : data.length < UInt64.size) : wordAtOffset shape data start = .ok w := by
  have hregion : region shape data start 32 = .ok w.bytes :=
    region_of_standsAt h (by simp) hdata
  simp [wordAtOffset, hregion]

theorem positionAt_of_standsAt {n : Nat} (h : data.StandsAt start.toNat (Word.ofNat n).bytes)
    (hn : n < UInt64.size) (hdata : data.length < UInt64.size) :
    positionAt shape data start = .ok (UInt64.ofNat n) := by
  simp [positionAt, wordAtOffset_of_standsAt h hdata, Word.toUInt64?_ofNat hn, representable]

/-! ## Byte strings -/

theorem length_le_pad (content : Bytes) : content.length ≤ (pad content).length := by
  simp [pad]

theorem bytesAtOffset_of_standsAt {content : Bytes}
    (h : data.StandsAt start.toNat (bytesTail content)) (hdata : data.length < UInt64.size) :
    bytesAtOffset shape data start = .ok content := by
  have hstop := h.stop_le
  have hcontent := length_le_pad content
  simp only [bytesTail, List.length_append, Word.length_bytes] at hstop
  have hlength : positionAt shape data start = .ok (UInt64.ofNat content.length) :=
    positionAt_of_standsAt h.left (by omega) hdata
  have hbody : (start + 32).toNat = start.toNat + 32 := toNat_add_of_lt (by simp; omega)
  have hregion : region shape data (start + 32) (UInt64.ofNat content.length) = .ok content := by
    refine region_of_standsAt ?_ (UInt64.toNat_ofNat_of_lt' (by omega)) hdata
    have hright := h.right
    rw [Word.length_bytes] at hright
    rw [hbody]
    exact hright.left
  simp [bytesAtOffset, hlength, hregion]

theorem toNat_headOffset {index : UInt64} (h : data.StandsAt (index.toNat * wordSize) piece)
    (hdata : data.length < UInt64.size) : (index * 32).toNat = index.toNat * wordSize := by
  have hstop := h.stop_le
  rw [wordSize] at hstop
  refine toNat_mul_of_lt ?_
  simp
  omega

/-- Head word `i` of a table that stands before a layout. -/
theorem positionAt_head {n : Nat} {i : UInt64}
    (h : data.StandsAt (i.toNat * wordSize) (Word.ofNat n).bytes) (hn : n < UInt64.size)
    (hdata : data.length < UInt64.size) :
    positionAt shape data (i * 32) = .ok (UInt64.ofNat n) :=
  positionAt_of_standsAt (toNat_headOffset h hdata ▸ h) hn hdata

theorem wordAt_of_standsAt {w : Word} {index : UInt64}
    (h : data.StandsAt (index.toNat * wordSize) w.bytes) (hdata : data.length < UInt64.size) :
    wordAt data index = .ok w :=
  wordAtOffset_of_standsAt (toNat_headOffset h hdata ▸ h) hdata

/-- The head word of a deferred value leads to its tail. -/
theorem positionAt_encode (shape : Shape) {tokens : List Token} {index : UInt64} {tail : Bytes}
    (h : (tokens.map Token.part)[index.toNat]? = some (.deferred tail)) (hfits : Addressable tokens) :
    ∃ start : UInt64, positionAt shape (encode tokens) (index * 32) = .ok start ∧
      (encode tokens).StandsAt start.toNat tail := by
  have htail := encode_standsAt_tail h
  have hstart : tailStart (tokens.map Token.part) index.toNat < UInt64.size :=
    Nat.lt_of_le_of_lt (Nat.le_trans (Nat.le_add_right ..) htail.stop_le) hfits
  refine ⟨_, positionAt_head (encode_standsAt_head h) hstart hfits, ?_⟩
  rwa [UInt64.toNat_ofNat_of_lt' hstart]

/-- The byte string at a position of a list of values is read back. -/
theorem bytesAt_encode {tokens : List Token} {index : UInt64} {content : Bytes}
    (h : tokens[index.toNat]? = some (.bytes content)) (hfits : Addressable tokens) :
    bytesAt (encode tokens) index = .ok content := by
  have hpart : (tokens.map Token.part)[index.toNat]? = some (.deferred (bytesTail content)) := by
    simp [h, Token.part]
  obtain ⟨start, hstart, htail⟩ := positionAt_encode .dynamicValue hpart hfits
  simp only [bytesAt, hstart, Except.ok_bind]
  exact bytesAtOffset_of_standsAt htail hfits

/-! ## Counts -/

/-- A count and that many words behind it are read back. -/
theorem region_of_counted (shape : Shape) {n : Nat} {body : Bytes}
    (h : data.StandsAt start.toNat ((Word.ofNat n).bytes ++ body)) (hbody : body.length = n * wordSize)
    (hdata : data.length < UInt64.size) :
    (UInt64.ofNat n).toNat = n ∧ (start + 32).toNat = start.toNat + 32 ∧
      positionAt shape data start = .ok (UInt64.ofNat n) ∧
      checkedMul (UInt64.ofNat n) 32 = some (UInt64.ofNat n * 32) ∧
      region shape data (start + 32) (UInt64.ofNat n * 32) = .ok body := by
  have hstop := h.stop_le
  rw [List.length_append, Word.length_bytes, hbody, wordSize] at hstop
  have hcount : (UInt64.ofNat n).toNat = n := UInt64.toNat_ofNat_of_lt' (by omega)
  have hfits : (UInt64.ofNat n).toNat * (32 : UInt64).toNat < UInt64.size := by
    rw [hcount]
    simp
    omega
  have hsize : (UInt64.ofNat n * 32).toNat = body.length := by
    rw [toNat_mul_of_lt hfits, hcount, hbody]
    rfl
  have hbase : (start + 32).toNat = start.toNat + 32 := toNat_add_of_lt (by simp; omega)
  have hright := h.right
  rw [Word.length_bytes, ← hbase] at hright
  exact ⟨hcount, hbase, positionAt_of_standsAt h.left (by omega) hdata, if_pos hfits,
    region_of_standsAt hright hsize hdata⟩

/-! ## Arrays of byte strings -/

/-- The offsets of the elements of an array, counted from where they stand themselves. -/
def itemTable (items : List Bytes) : Bytes :=
  heads ((itemParts items).length * wordSize) (itemParts items)

@[simp] theorem length_itemTable (items : List Bytes) :
    (itemTable items).length = items.length * wordSize := by
  simp [itemTable, itemParts]

variable {items : List Bytes} {base : UInt64}

theorem itemTable_le (h : data.StandsAt base.toNat (layout (itemParts items))) :
    base.toNat + items.length * wordSize ≤ data.length := by
  have htable : data.StandsAt base.toNat (itemTable items) := h.left
  simpa using htable.stop_le

theorem element_of_standsAt {i : UInt64} {item : Bytes}
    (h : data.StandsAt base.toNat (layout (itemParts items))) (hdata : data.length < UInt64.size)
    (hi : items[i.toNat]? = some item) :
    ∃ relative start, positionAt .bytesArray (itemTable items) (i * 32) = .ok relative ∧
      checkedAdd base relative = some start ∧ bytesAtOffset .bytesArray data start = .ok item := by
  have hpart : (itemParts items)[i.toNat]? = some (.deferred (bytesTail item)) := by
    simp [itemParts, hi]
  have htable := itemTable_le h
  have htail := h.trans (layout_standsAt_tail hpart)
  have hstop := htail.stop_le
  have hrelative : (UInt64.ofNat (tailStart (itemParts items) i.toNat)).toNat =
      tailStart (itemParts items) i.toNat := UInt64.toNat_ofNat_of_lt' (by omega)
  have hadd : base.toNat + (UInt64.ofNat (tailStart (itemParts items) i.toNat)).toNat < UInt64.size := by
    omega
  refine ⟨_, _, ?_, checkedAdd_eq hadd, ?_⟩
  · refine positionAt_head (heads_standsAt _ hpart) ?_ ?_
    · rw [tailStart] at hstop
      omega
    · rw [length_itemTable]
      omega
  · refine bytesAtOffset_of_standsAt ?_ hdata
    rw [toNat_add_of_lt hadd, hrelative]
    exact htail

/-- The elements behind the first few are read back, one after the other. -/
theorem elementsFrom_of_standsAt (h : data.StandsAt base.toNat (layout (itemParts items)))
    (hdata : data.length < UInt64.size) (rest : List Bytes) :
    (first : List Bytes) → items = first ++ rest →
      elementsFrom data base (itemTable items) rest.length (UInt64.ofNat first.length) = .ok rest := by
  have htable := itemTable_le h
  -- The elements that were read before matter only for the index of the next one.
  induction rest with
  | nil => exact fun _ _ => rfl
  | cons item rest ih =>
      intro first hitems
      have hcount : items.length = first.length + (rest.length + 1) := by simp [hitems]
      have hfirst : (UInt64.ofNat first.length).toNat = first.length :=
        UInt64.toNat_ofNat_of_lt' (by simp only [wordSize] at htable; omega)
      have hitem? : items[(UInt64.ofNat first.length).toNat]? = some item := by simp [hfirst, hitems]
      obtain ⟨relative, start, hposition, hadd, hitem⟩ := element_of_standsAt h hdata hitem?
      have hnext : UInt64.ofNat first.length + 1 = UInt64.ofNat (first ++ [item]).length := by
        simp [UInt64.ofNat_add]
      rw [List.length_cons, elementsFrom, hposition, Except.ok_bind, hadd, representable, Except.ok_bind,
        hitem, Except.ok_bind, hnext, ih (first ++ [item]) (by simp [hitems])]
      rfl

/-- The array of byte strings at a position of a list of values is read back. -/
theorem bytesArrayAt_encode {tokens : List Token} {index : UInt64}
    (h : tokens[index.toNat]? = some (.bytesArray items)) (hfits : Addressable tokens) :
    bytesArrayAt (encode tokens) index = .ok items := by
  have hpart : (tokens.map Token.part)[index.toNat]? =
      some (.deferred ((Word.ofNat items.length).bytes ++ layout (itemParts items))) := by
    simp [h, Token.part, itemParts]
  obtain ⟨start, hstart, htail⟩ := positionAt_encode .bytesArray hpart hfits
  have htable : (encode tokens).StandsAt start.toNat
      ((Word.ofNat items.length).bytes ++ itemTable items) := by
    rw [layout, ← List.append_assoc] at htail
    exact htail.left
  obtain ⟨hcount, hbase, hposition, hmul, hregion⟩ :=
    region_of_counted .bytesArray htable (length_itemTable items) hfits
  have hlayout := htail.right
  rw [Word.length_bytes, ← hbase] at hlayout
  simp only [bytesArrayAt, hstart, Except.ok_bind, hposition, hmul, representable, hregion, hcount]
  exact elementsFrom_of_standsAt hlayout hfits items [] rfl

/-! ## Words -/

/-- The word at a position of a list of values is read back. -/
theorem wordAt_encode {tokens : List Token} {index : UInt64} {w : Word}
    (h : tokens[index.toNat]? = some (.word w)) (hfits : Addressable tokens) :
    wordAt (encode tokens) index = .ok w := by
  have hpart : (tokens.map Token.part)[index.toNat]? = some (.inline w) := by simp [h, Token.part]
  exact wordAt_of_standsAt (encode_standsAt_inline hpart) hfits

/-- The array of words at a position of a list of values is read back. -/
theorem wordsAt_encode {tokens : List Token} {index : UInt64} {items : List Word}
    (h : tokens[index.toNat]? = some (.words items)) (hfits : Addressable tokens) :
    wordsAt (encode tokens) index = .ok items := by
  have hpart : (tokens.map Token.part)[index.toNat]? =
      some (.deferred ((Word.ofNat items.length).bytes ++ items.flatMap (·.bytes))) := by
    simp [h, Token.part]
  obtain ⟨start, hstart, htail⟩ := positionAt_encode .wordArray hpart hfits
  obtain ⟨-, -, hposition, hmul, hregion⟩ :=
    region_of_counted .wordArray htail (Bytes.length_flatMap_bytes items) hfits
  have hread : Word.ofBytes? ∘ (fun w : Word => w.bytes) = some := by
    funext w
    exact Word.ofBytes?_bytes w
  have hwords : (items.map (·.bytes)).filterMap Word.ofBytes? = items := by
    rw [List.filterMap_map, hread, List.filterMap_some]
  simp only [wordsAt, hstart, Except.ok_bind, hposition, hmul, representable, hregion,
    Except.pure_eq_ok, wordSize, Bytes.chunks_flatMap (n := 32) (by decide) items, hwords]

/-! ## All values -/

/-- The value is read back from a buffer at head word `index`. A tail that was laid out before stands,
padded with zeros, where the head word says. -/
def Token.ReadAt (data : Bytes) (index : UInt64) : Token → Prop
  | .word w => wordAt data index = .ok w
  | .bytes content => bytesAt data index = .ok content
  | .bytesArray items => bytesArrayAt data index = .ok items
  | .words items => wordsAt data index = .ok items
  | .tail encoded => ∃ start, wordAt data index = .ok (Word.ofNat start) ∧ data.StandsAt start (pad encoded)

theorem Token.readAt_encode {tokens : List Token} {index : UInt64} {token : Token}
    (h : tokens[index.toNat]? = some token) (hfits : Addressable tokens) :
    token.ReadAt (encode tokens) index := by
  cases token with
  | word w => exact wordAt_encode h hfits
  | bytes content => exact bytesAt_encode h hfits
  | bytesArray items => exact bytesArrayAt_encode h hfits
  | words items => exact wordsAt_encode h hfits
  | tail encoded =>
      have hpart : (tokens.map Token.part)[index.toNat]? = some (.deferred (pad encoded)) := by
        simp [h, Token.part]
      exact ⟨_, wordAt_of_standsAt (encode_standsAt_head hpart) hfits, encode_standsAt_tail hpart⟩

/-- Every value of a list is read back from the buffer of the list at its own place, as long as the
buffer can be addressed. The buffer takes whole words, and what stands before it does not change it. -/
theorem encode_roundTrip (tokens : List Token) :
    ((encode tokens).length < 2 ^ 64 → ∀ (k : Nat) (token : Token), tokens[k]? = some token →
      token.ReadAt (encode tokens) (UInt64.ofNat k)) ∧
    32 ∣ (encode tokens).length ∧
    ∀ front, encodeAfter front tokens = front ++ encode tokens := by
  refine ⟨?_, wordSize_dvd_encode tokens, fun front => encodeAfter_eq front tokens⟩
  intro hfits k token hk
  have hlength : tokens.length * wordSize ≤ (encode tokens).length := by
    simp [encode_eq_layout, layout]
  obtain ⟨hlt, -⟩ := List.getElem?_eq_some_iff.mp hk
  rw [wordSize] at hlength
  have hindex : (UInt64.ofNat k).toNat = k := UInt64.toNat_ofNat_of_lt' (by simp [UInt64.size]; omega)
  exact Token.readAt_encode (hindex.symm ▸ hk) hfits

/-- Of five values of all kinds, the array of byte strings in their midst and the tail behind them. -/
theorem encode_roundTrip_mixed :
    let tokens : List Token := [.bytes (List.replicate 33 7), .word (Word.ofNat 1),
      .bytesArray [[], [1, 2, 3]], .words [Word.ofNat 2], .tail [9]]
    (encode tokens).length < 2 ^ 64 ∧ bytesArrayAt (encode tokens) 2 = .ok [[], [1, 2, 3]] ∧
      ∃ start, wordAt (encode tokens) 4 = .ok (Word.ofNat start) ∧
        (encode tokens).StandsAt start (9 :: List.replicate 31 0) := by
  intro tokens
  have hfits : (encode tokens).length < 2 ^ 64 := by decide +kernel
  have hread := (encode_roundTrip tokens).1 hfits
  exact ⟨hfits, hread 2 (.bytesArray [[], [1, 2, 3]]) rfl, hread 4 (.tail [9]) rfl⟩

end CallScript.Abi
