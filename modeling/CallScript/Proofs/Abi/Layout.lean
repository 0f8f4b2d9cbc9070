import CallScript.Abi.Token
import CallScript.Proofs.Bytes

/-!
# Where values stand in a call buffer

A buffer is written by appending to a head and a tail. What comes out is the head words of all values
followed by their parts of the tail: the head word of a value stands at its place in the head, and for a
deferred value it holds the position at which the value's part of the tail stands.
-/

namespace CallScript.Abi

/-! ## Parts -/

/-- What a value adds to a buffer: a word of the head, or a part of the tail. -/
inductive Part where
  | inline (w : Word)
  | deferred (tail : Bytes)

/-- The content followed by zeros up to a whole number of words. -/
def pad (content : Bytes) : Bytes :=
  content ++ List.replicate (paddedLength content.length - content.length) 0

/-- The tail of a byte string: its length, then its padded content. -/
def bytesTail (content : Bytes) : Bytes :=
  (Word.ofNat content.length).bytes ++ pad content

/-- The head words of the parts, when the first deferred part begins at position `next`. -/
def heads (next : Nat) : List Part → Bytes
  | [] => []
  | .inline w :: parts => w.bytes ++ heads next parts
  | .deferred tail :: parts => (Word.ofNat next).bytes ++ heads (next + tail.length) parts

/-- The deferred parts in order. -/
def tails : List Part → Bytes
  | [] => []
  | .inline _ :: parts => tails parts
  | .deferred tail :: parts => tail ++ tails parts

/-- The head of all parts, followed by their tails. -/
def layout (parts : List Part) : Bytes :=
  heads (parts.length * wordSize) parts ++ tails parts

/-- The parts of an array of byte strings. -/
def itemParts (items : List Bytes) : List Part :=
  items.map fun item => .deferred (bytesTail item)

/-- What a value adds to a buffer: a static word stands in the head, all else is deferred. -/
def Token.part : Token → Part
  | .word w => .inline w
  | .bytes content => .deferred (bytesTail content)
  | .bytesArray items => .deferred ((Word.ofNat items.length).bytes ++ layout (itemParts items))
  | .words items => .deferred ((Word.ofNat items.length).bytes ++ items.flatMap (·.bytes))
  | .tail encoded => .deferred (pad encoded)

/-! ## What is appended -/

theorem appendPadded_eq (buffer content : Bytes) : appendPadded buffer content = buffer ++ pad content := by
  simp [appendPadded, pad]

theorem appendBytes_eq (buffer content : Bytes) :
    appendBytes buffer content = buffer ++ bytesTail content := by
  simp [appendBytes, appendPadded_eq, bytesTail]

/-- Adds a part to a buffer in the making. -/
def Draft.place (headLength : Nat) (d : Draft) : Part → Draft
  | .inline w => d.inline w
  | .deferred tail => d.defer headLength (· ++ tail)

theorem foldl_place (headLength : Nat) (parts : List Part) (d : Draft) :
    parts.foldl (Draft.place headLength) d =
      ⟨d.head ++ heads (headLength + d.tail.length) parts, d.tail ++ tails parts⟩ := by
  induction parts generalizing d with
  | nil => simp [heads, tails]
  | cons part parts ih =>
      cases part <;> simp [ih, Draft.place, Draft.inline, Draft.defer, heads, tails, Nat.add_assoc]

/-- Values that are added part by part are laid out behind what was there, whatever that is. -/
theorem layoutAfter_eq {α : Type} {add : Nat → Draft → α → Draft} {part : α → Part}
    (h : ∀ headLength d value, add headLength d value = d.place headLength (part value)) (front : Bytes)
    (values : List α) : layoutAfter add front values = front ++ layout (values.map part) := by
  have hadd (headLength : Nat) : add headLength = fun d value => d.place headLength (part value) := by
    funext d value
    exact h headLength d value
  simp [layoutAfter, hadd, ← List.foldl_map, foldl_place, layout]

theorem appendArray_eq (buffer : Bytes) (items : List Bytes) :
    appendArray buffer items = buffer ++ ((Word.ofNat items.length).bytes ++ layout (itemParts items)) := by
  have hitem (headLength : Nat) (d : Draft) (item : Bytes) :
      d.defer headLength (appendBytes · item) = d.place headLength (.deferred (bytesTail item)) := by
    simp [Draft.place, appendBytes_eq]
  rw [appendArray, layoutAfter_eq hitem, List.append_assoc, itemParts]

theorem Token.addTo_eq (headLength : Nat) (d : Draft) (token : Token) :
    token.addTo headLength d = d.place headLength token.part := by
  cases token with
  | word w => rfl
  | bytes content => simp [addTo, part, Draft.place, appendBytes_eq]
  | bytesArray items => simp [addTo, part, Draft.place, appendArray_eq]
  | words items => simp [addTo, part, Draft.place]
  | tail encoded => simp [addTo, part, Draft.place, appendPadded_eq]

theorem encodeAfter_eq_layout (front : Bytes) (tokens : List Token) :
    encodeAfter front tokens = front ++ layout (tokens.map Token.part) :=
  layoutAfter_eq Token.addTo_eq front tokens

theorem encode_eq_layout (tokens : List Token) : encode tokens = layout (tokens.map Token.part) :=
  encodeAfter_eq_layout [] tokens

/-- What stands before a buffer does not change it. -/
theorem encodeAfter_eq (front : Bytes) (tokens : List Token) :
    encodeAfter front tokens = front ++ encode tokens := by
  rw [encodeAfter_eq_layout, encode_eq_layout]

/-! ## Heads and tails -/

@[simp] theorem length_heads (next : Nat) (parts : List Part) :
    (heads next parts).length = parts.length * wordSize := by
  induction parts generalizing next with
  | nil => simp [heads]
  | cons part parts ih =>
      cases part <;> simp only [heads, List.length_append, Word.length_bytes, ih, wordSize,
        List.length_cons] <;> omega

theorem heads_append (next : Nat) (front back : List Part) :
    heads next (front ++ back) = heads next front ++ heads (next + (tails front).length) back := by
  induction front generalizing next with
  | nil => simp [heads, tails]
  | cons part parts ih =>
      cases part <;> simp [heads, tails, ih, Nat.add_assoc]

theorem tails_append (front back : List Part) : tails (front ++ back) = tails front ++ tails back := by
  induction front with
  | nil => simp [tails]
  | cons part parts ih => cases part <;> simp [tails, ih]

/-! ## Layouts -/

/-- Where part `k` begins in the tail, if it is deferred. -/
def tailStart (parts : List Part) (k : Nat) : Nat :=
  parts.length * wordSize + (tails (parts.take k)).length

theorem split_at {parts : List Part} {k : Nat} {part : Part} (h : parts[k]? = some part) :
    parts = parts.take k ++ part :: parts.drop (k + 1) ∧ (parts.take k).length = k := by
  obtain ⟨hk, rfl⟩ := List.getElem?_eq_some_iff.mp h
  exact ⟨by simp, by simp; omega⟩

/-- The head word of an inline part is the word itself. -/
theorem heads_standsAt_inline (next : Nat) {parts : List Part} {k : Nat} {w : Word}
    (h : parts[k]? = some (.inline w)) : (heads next parts).StandsAt (k * wordSize) w.bytes := by
  obtain ⟨hparts, hk⟩ := split_at h
  refine ⟨heads next (parts.take k), heads (next + (tails (parts.take k)).length)
    (parts.drop (k + 1)), ?_, by rw [length_heads, hk]⟩
  calc heads next parts
      _ = heads next (parts.take k ++ .inline w :: parts.drop (k + 1)) := congrArg _ hparts
      _ = _ := by rw [heads_append, heads, List.append_assoc]

/-- The head word of a deferred part holds the position of its tail. -/
theorem heads_standsAt (next : Nat) {parts : List Part} {k : Nat} {tail : Bytes}
    (h : parts[k]? = some (.deferred tail)) :
    (heads next parts).StandsAt (k * wordSize)
      (Word.ofNat (next + (tails (parts.take k)).length)).bytes := by
  obtain ⟨hparts, hk⟩ := split_at h
  refine ⟨heads next (parts.take k), heads (next + (tails (parts.take k)).length + tail.length)
    (parts.drop (k + 1)), ?_, by rw [length_heads, hk]⟩
  calc heads next parts
      _ = heads next (parts.take k ++ .deferred tail :: parts.drop (k + 1)) := congrArg _ hparts
      _ = _ := by rw [heads_append, heads, List.append_assoc]

theorem tails_standsAt {parts : List Part} {k : Nat} {tail : Bytes}
    (h : parts[k]? = some (.deferred tail)) :
    (tails parts).StandsAt (tails (parts.take k)).length tail := by
  obtain ⟨hparts, -⟩ := split_at h
  refine ⟨tails (parts.take k), tails (parts.drop (k + 1)), ?_, rfl⟩
  calc tails parts
      _ = tails (parts.take k ++ .deferred tail :: parts.drop (k + 1)) := congrArg _ hparts
      _ = _ := by rw [tails_append, tails, List.append_assoc]

theorem layout_standsAt_head {parts : List Part} {k : Nat} {tail : Bytes}
    (h : parts[k]? = some (.deferred tail)) :
    (layout parts).StandsAt (k * wordSize) (Word.ofNat (tailStart parts k)).bytes :=
  (heads_standsAt _ h).inFront

theorem layout_standsAt_tail {parts : List Part} {k : Nat} {tail : Bytes}
    (h : parts[k]? = some (.deferred tail)) :
    (layout parts).StandsAt (tailStart parts k) tail := by
  have hbehind := (tails_standsAt h).behind (heads (parts.length * wordSize) parts)
  rwa [length_heads] at hbehind

theorem layout_standsAt_inline {parts : List Part} {k : Nat} {w : Word}
    (h : parts[k]? = some (.inline w)) : (layout parts).StandsAt (k * wordSize) w.bytes :=
  (heads_standsAt_inline _ h).inFront

/-! ## Buffers -/

section

variable {tokens : List Token} {k : Nat}

theorem encode_standsAt_inline {w : Word} (h : (tokens.map Token.part)[k]? = some (.inline w)) :
    (encode tokens).StandsAt (k * wordSize) w.bytes := by
  rw [encode_eq_layout]
  exact layout_standsAt_inline h

variable {tail : Bytes}

theorem encode_standsAt_head (h : (tokens.map Token.part)[k]? = some (.deferred tail)) :
    (encode tokens).StandsAt (k * wordSize) (Word.ofNat (tailStart (tokens.map Token.part) k)).bytes := by
  rw [encode_eq_layout]
  exact layout_standsAt_head h

theorem encode_standsAt_tail (h : (tokens.map Token.part)[k]? = some (.deferred tail)) :
    (encode tokens).StandsAt (tailStart (tokens.map Token.part) k) tail := by
  rw [encode_eq_layout]
  exact layout_standsAt_tail h

end

/-! ## Whole words -/

theorem wordSize_dvd_pad (content : Bytes) : wordSize ∣ (pad content).length := by
  have hle : content.length ≤ paddedLength content.length := by
    simp only [paddedLength, wordSize]
    omega
  have hlength : (pad content).length = paddedLength content.length := by
    simp only [pad, List.length_append, List.length_replicate]
    omega
  rw [hlength]
  exact Nat.dvd_mul_left ..

theorem wordSize_dvd_bytesTail (content : Bytes) : wordSize ∣ (bytesTail content).length := by
  rw [bytesTail, List.length_append, Word.length_bytes]
  exact Nat.dvd_add (Nat.dvd_refl _) (wordSize_dvd_pad content)

/-- A part that is deferred takes whole words. -/
def Part.Whole : Part → Prop
  | .inline _ => True
  | .deferred tail => wordSize ∣ tail.length

theorem wordSize_dvd_tails (parts : List Part) (h : ∀ part ∈ parts, part.Whole) :
    wordSize ∣ (tails parts).length := by
  induction parts with
  | nil => exact Nat.dvd_zero _
  | cons part parts ih =>
      obtain ⟨hpart, hparts⟩ := List.forall_mem_cons.mp h
      cases part with
      | inline w => exact ih hparts
      | deferred tail =>
          rw [tails, List.length_append]
          exact Nat.dvd_add hpart (ih hparts)

theorem wordSize_dvd_layout {parts : List Part} (h : ∀ part ∈ parts, part.Whole) :
    wordSize ∣ (layout parts).length := by
  rw [layout, List.length_append, length_heads]
  exact Nat.dvd_add (Nat.dvd_mul_left ..) (wordSize_dvd_tails parts h)

theorem Token.whole_part (token : Token) : token.part.Whole := by
  cases token with
  | word w => trivial
  | bytes content => exact wordSize_dvd_bytesTail content
  | bytesArray items =>
      have hitems : ∀ part ∈ itemParts items, part.Whole := by
        intro part hpart
        obtain ⟨item, -, rfl⟩ := List.mem_map.mp hpart
        exact wordSize_dvd_bytesTail item
      simp only [part, Part.Whole, List.length_append, Word.length_bytes]
      exact Nat.dvd_add (Nat.dvd_refl _) (wordSize_dvd_layout hitems)
  | words items =>
      simp only [part, Part.Whole, List.length_append, Word.length_bytes, Bytes.length_flatMap_bytes]
      exact Nat.dvd_add (Nat.dvd_refl _) (Nat.dvd_mul_left ..)
  | tail encoded => exact wordSize_dvd_pad encoded

/-- A buffer takes whole words. -/
theorem wordSize_dvd_encode (tokens : List Token) : wordSize ∣ (encode tokens).length := by
  rw [encode_eq_layout]
  refine wordSize_dvd_layout fun part hpart => ?_
  obtain ⟨token, -, rfl⟩ := List.mem_map.mp hpart
  exact token.whole_part

end CallScript.Abi
