import CallScript.Proofs.Abi.RoundTrip

/-!
# Tails can be moved

The positions inside the tail of a value count from the tail itself, so a tail that was taken out of one
buffer can be put into any other in the place of its value.
-/

namespace CallScript.Abi

/-! ## Padding -/

theorem pad_eq (content : Bytes) :
    ∃ zeros < 32, 32 ∣ content.length + zeros ∧ pad content = content ++ List.replicate zeros 0 := by
  refine ⟨paddedLength content.length - content.length, ?_, ?_, rfl⟩
  · simp only [paddedLength, wordSize]
    omega
  · have hdvd := wordSize_dvd_pad content
    rwa [pad, List.length_append, List.length_replicate] at hdvd

/-- Whole words need no padding. -/
theorem pad_of_dvd {content : Bytes} (h : wordSize ∣ content.length) : pad content = content := by
  obtain ⟨zeros, hzeros, hdvd, hpad⟩ := pad_eq content
  rw [wordSize] at h
  have hnone : zeros = 0 := by omega
  rw [hpad, hnone, List.replicate_zero, List.append_nil]

theorem wordSize_le_pad {content : Bytes} (h : content ≠ []) : wordSize ≤ (pad content).length := by
  have hpositive : 0 < content.length := List.length_pos_iff.mpr h
  exact Nat.le_of_dvd (Nat.lt_of_lt_of_le hpositive (length_le_pad content)) (wordSize_dvd_pad content)

/-! ## Taking a tail out -/

theorem encode_singleton {token : Token} {tail : Bytes} (h : token.part = .deferred tail) :
    encode [token] = (Word.ofNat 32).bytes ++ tail := by
  simp [encode_eq_layout, layout, h, heads, tails, wordSize]

/-- The tail of a value is taken out of the buffer of that value alone. -/
theorem tailOf_encode {token : Token} {tail : Bytes} (h : token.part = .deferred tail)
    (hlength : wordSize ≤ tail.length) (hfits : Addressable [token]) : tailOf (encode [token]) = .ok tail := by
  rw [Addressable, encode_singleton h] at hfits
  rw [encode_singleton h]
  have hstart : positionAt .dynamicTail ((Word.ofNat 32).bytes ++ tail) 0 = .ok 32 :=
    positionAt_of_standsAt ⟨[], tail, rfl, rfl⟩ (by decide) hfits
  have hregion : region .dynamicTail ((Word.ofNat 32).bytes ++ tail) 32 32 = .ok (tail.take 32) := by
    refine region_of_standsAt ⟨(Word.ofNat 32).bytes, tail.drop 32, ?_, ?_⟩ ?_ hfits
    · simp
    · simp
    · rw [wordSize] at hlength
      simp [hlength]
  simp [tailOf, hstart, hregion]

/-! ## Putting a tail in -/

namespace Token

/-- The value takes room behind the head. -/
def HasTail : Token → Prop
  | .word _ => False
  | .tail encoded => encoded ≠ []
  | .bytes _ | .bytesArray _ | .words _ => True

instance : (token : Token) → Decidable token.HasTail
  | .word _ => inferInstanceAs (Decidable False)
  | .tail encoded => inferInstanceAs (Decidable (encoded ≠ []))
  | .bytes _ | .bytesArray _ | .words _ => inferInstanceAs (Decidable True)

theorem HasTail.part {token : Token} (h : token.HasTail) :
    ∃ tail, token.part = .deferred tail ∧ wordSize ≤ tail.length := by
  cases token with
  | word w => cases h
  | bytes content => exact ⟨_, rfl, by simp [bytesTail, wordSize]⟩
  | bytesArray items => exact ⟨_, rfl, by simp [wordSize]⟩
  | words items => exact ⟨_, rfl, by simp [wordSize]⟩
  | tail encoded => exact ⟨_, rfl, wordSize_le_pad h⟩

theorem part_tail_of_part {token : Token} {tail : Bytes} (h : token.part = .deferred tail) :
    (Token.tail tail).part = token.part := by
  have hwhole : wordSize ∣ tail.length := by
    have hpart := token.whole_part
    rwa [h] at hpart
  rw [h, Token.part, pad_of_dvd hwhole]

end Token

theorem encode_congr {a b : Token} (h : a.part = b.part) (before after : List Token) :
    encode (before ++ a :: after) = encode (before ++ b :: after) := by
  simp only [encode_eq_layout, List.map_append, List.map_cons, h]

/-- The tail of a value is read from the buffer of that value alone. Put in the value's place among any
other values, it gives the same buffer as the value itself. -/
theorem encode_spliced_tail (token : Token) (htail : token.HasTail)
    (hfits : (encode [token]).length < 2 ^ 64) :
    ∃ tail, tailOf (encode [token]) = .ok tail ∧
      ∀ before after, encode (before ++ .tail tail :: after) = encode (before ++ token :: after) := by
  obtain ⟨tail, hpart, hlength⟩ := htail.part
  refine ⟨tail, tailOf_encode hpart hlength hfits, ?_⟩
  intro before after
  exact encode_congr (Token.part_tail_of_part hpart) before after

/-- An array of byte strings between a word and a byte string. -/
theorem encode_spliced_tail_array :
    let array : Token := .bytesArray [[1], [2, 3]]
    array.HasTail ∧ (encode [array]).length < 2 ^ 64 ∧
      ∃ tail, tailOf (encode [array]) = .ok tail ∧ tail.length = 224 ∧
        encode [.word (Word.ofNat 9), .tail tail, .bytes [7]] =
          encode [.word (Word.ofNat 9), array, .bytes [7]] := by
  intro array
  have hfits : (encode [array]).length < 2 ^ 64 := by decide +kernel
  obtain ⟨tail, hread, hspliced⟩ := encode_spliced_tail array trivial hfits
  have hlength : (tailOf (encode [array])).toOption.map List.length = some 224 := by decide +kernel
  rw [hread] at hlength
  exact ⟨trivial, hfits, tail, hread, Option.some.inj hlength, hspliced [.word (Word.ofNat 9)] [.bytes [7]]⟩

end CallScript.Abi
