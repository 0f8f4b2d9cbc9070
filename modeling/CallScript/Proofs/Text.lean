import CallScript.Hex
import CallScript.Text.Blank
import CallScript.Text.Lines
import Mathlib.Algebra.Group.Nat.Defs

/-!
# Numerals and lines in text

Bytes are read back from their hexadecimal digits, and numbers from their decimal ones. Lines that
end with a line feed are told apart again. A text can be cut in front of each of its lines, and every
line can be replaced where it stands.
-/

namespace CallScript

/-! ## Bytes in hexadecimal digits -/

namespace Hex

theorem digit?_digitChar (n : Fin 16) : digit? (Nat.digitChar n) = some n.val := by
  revert n
  decide

theorem digit?_high (b : UInt8) : digit? (Nat.digitChar (b.toNat / 16)) = some (b.toNat / 16) := by
  have hb : b.toNat < 256 := b.toNat_lt
  exact digit?_digitChar ⟨b.toNat / 16, by omega⟩

theorem digit?_low (b : UInt8) : digit? (Nat.digitChar (b.toNat % 16)) = some (b.toNat % 16) :=
  digit?_digitChar ⟨b.toNat % 16, Nat.mod_lt _ (by decide)⟩

theorem decodeDigits_digits (b : UInt8) (rest : List Char) :
    decodeDigits (digits b ++ rest) = (b :: ·) <$> decodeDigits rest := by
  have hvalue : b.toNat / 16 * 16 + b.toNat % 16 = b.toNat := by omega
  simp only [digits, List.cons_append, List.nil_append, decodeDigits, digit?_high, digit?_low, Option.bind_eq_bind,
    Option.bind_some, hvalue, UInt8.ofNat_toNat]
  cases decodeDigits rest <;> rfl

theorem length_of_decodeDigits {text : List Char} {bytes : Bytes} (h : decodeDigits text = some bytes) :
    2 * bytes.length = text.length := by
  fun_induction decodeDigits text generalizing bytes with
  | case1 => cases h; rfl
  | case2 => cases h
  | case3 hi lo rest ih =>
      simp only [Option.bind_eq_bind, Option.bind_eq_some_iff, Option.pure_def, Option.some.injEq] at h
      obtain ⟨_, -, _, -, later, hrest, rfl⟩ := h
      have hlater := ih hrest
      simp only [List.length_cons]
      omega

theorem ne_of_mem_digits {b : UInt8} {c d : Char} (hc : c ∈ digits b) (hd : digit? d = none) : c ≠ d := by
  rintro rfl
  simp only [digits, List.mem_cons, List.not_mem_nil, or_false] at hc
  rcases hc with rfl | rfl
  · simp [digit?_high] at hd
  · simp [digit?_low] at hd

theorem unsign_cons {c : Char} (h : c ≠ '+') (rest : List Char) : Text.unsign (c :: rest) = c :: rest := by
  unfold Text.unsign
  split
  · next heq =>
    cases heq
    exact absurd rfl h
  · rfl

theorem unsign_digits (b : UInt8) : Text.unsign (digits b) = digits b :=
  unsign_cons (ne_of_mem_digits (List.mem_cons_self ..) (by decide)) _

theorem byte?_digits (b : UInt8) : byte? (digits b) = some b := by
  have hvalue : b.toNat / 16 * 16 + b.toNat % 16 = b.toNat := by omega
  simp only [byte?, unsign_digits]
  simp [digits, digit?_high, digit?_low, hvalue]

theorem decodeDigits_flatMap (bytes : Bytes) : decodeDigits (bytes.flatMap digits) = some bytes := by
  induction bytes with
  | nil => rfl
  | cons b bytes ih => rw [List.flatMap_cons, decodeDigits_digits, ih]; rfl

theorem toList_render (bytes : Bytes) : (render bytes).toList = '0' :: 'x' :: bytes.flatMap digits := by
  simp [render, encode]

/-- Bytes are read back from their digits. -/
theorem decode_render (bytes : Bytes) : decode (render bytes) = some bytes := by
  rw [decode, toList_render]
  exact decodeDigits_flatMap bytes

end Hex

/-! ## Numbers in decimal digits -/

namespace Text

theorem decimalValue_toDigits (n : Nat) : decimalValue (Nat.toDigits 10 n) = n := by
  have hvalue : decimalValue (Nat.toDigits 10 n) = Nat.ofDigitChars 10 (Nat.toDigits 10 n) 0 := by
    simp only [decimalValue, Nat.ofDigitChars_eq_foldl, digitValue, Nat.mul_comm]
  rw [hvalue, Nat.ofDigitChars_ten_toDigits]

theorem isDigit_of_mem_toDigits {n : Nat} {c : Char} (h : c ∈ Nat.toDigits 10 n) : isDigit c = true := by
  have hc := Nat.isDigit_of_mem_toDigits (by decide) (by decide) h
  simpa [Char.isDigit, isDigit, Char.le_def] using hc

theorem unsign_toDigits (n : Nat) : unsign (Nat.toDigits 10 n) = Nat.toDigits 10 n := by
  unfold unsign
  split
  · next rest heq =>
    have hplus : isDigit '+' = true := isDigit_of_mem_toDigits (heq ▸ List.mem_cons_self ..)
    exact absurd hplus (by decide)
  · rfl

/-- A number is read back from its digits, if it takes no more bits than are asked for. -/
theorem decimal?_toDigits {bits n : Nat} (h : n < 2 ^ bits) :
    decimal? bits (Nat.toDigits 10 n) = some n := by
  have hall : (Nat.toDigits 10 n).all isDigit = true :=
    List.all_eq_true.mpr fun c hc => isDigit_of_mem_toDigits hc
  simp [decimal?, unsign_toDigits, hall, Nat.toDigits_ne_nil, decimalValue_toDigits, Nat.shiftLeft_eq, h]

/-! ## Lines -/

theorem linesFrom_append (line rest : List Char) (h : '\n' ∉ line) (before : List Char) :
    linesFrom before (line ++ rest) = linesFrom (line.reverse ++ before) rest := by
  induction line generalizing before with
  | nil => rfl
  | cons c line ih =>
      obtain ⟨hc, hline⟩ := not_or.mp (mt List.mem_cons.mpr h)
      rw [List.cons_append, linesFrom, if_neg (Ne.symm hc), ih hline, List.reverse_cons, List.append_assoc]
      rfl

theorem linesFrom_nil_of_feed_not_mem {line : List Char} (h : '\n' ∉ line) :
    linesFrom [] line = if line.isEmpty then [] else [line] := by
  have hlines := linesFrom_append line [] h []
  rw [List.append_nil, List.append_nil, linesFrom, List.reverse_reverse, List.isEmpty_reverse] at hlines
  exact hlines

theorem endLine_reverse {line : List Char} (h : line.getLast? ≠ some '\r') :
    endLine line.reverse = line := by
  unfold endLine
  split
  · next rest heq =>
    have hlast : line.getLast? = some '\r' := by rw [List.getLast?_eq_head?_reverse, heq, List.head?_cons]
    exact absurd hlast h
  · exact List.reverse_reverse line

/-- Lines without line feeds and carriage returns of their own are told apart again. -/
theorem linesFrom_flatMap (ls : List (List Char)) (h : ∀ line ∈ ls, '\n' ∉ line ∧ '\r' ∉ line) :
    linesFrom [] (ls.flatMap (· ++ ['\n'])) = ls := by
  induction ls with
  | nil => rfl
  | cons line ls ih =>
      obtain ⟨⟨hfeed, hreturn⟩, hls⟩ := List.forall_mem_cons.mp h
      rw [List.flatMap_cons, List.append_assoc, linesFrom_append _ _ hfeed, List.append_nil,
        List.singleton_append, linesFrom, if_pos rfl, endLine_reverse (mt List.mem_of_getLast? hreturn), ih hls]

theorem feed_not_mem_linesFrom {line text : List Char} (h : '\n' ∉ line) :
    ∀ l ∈ linesFrom line text, '\n' ∉ l := by
  induction text generalizing line with
  | nil =>
      rw [linesFrom]
      split
      · simp
      · simpa using h
  | cons c rest ih =>
      rw [linesFrom]
      split
      · rw [List.forall_mem_cons]
        refine ⟨?_, ih (by simp)⟩
        unfold endLine
        split
        · simp_all
        · simpa using h
      · next hc => exact ih (by simpa [eq_comm, hc] using h)

theorem linesFrom_cut (n : Nat) (line text : List Char) :
    ∃ front back, text = front ++ back ∧ linesFrom line front = (linesFrom line text).take (n + 1) ∧
      linesFrom [] back = (linesFrom line text).drop (n + 1) := by
  induction text generalizing line n with
  | nil =>
      have hlength : (linesFrom line []).length ≤ n + 1 := by
        rw [linesFrom]
        split <;> simp
      exact ⟨[], [], rfl, (List.take_of_length_le hlength).symm, (List.drop_of_length_le hlength).symm⟩
  | cons c rest ih =>
      by_cases hc : c = '\n'
      · subst hc
        have hlines (text : List Char) : linesFrom line ('\n' :: text) = endLine line :: linesFrom [] text := by
          rw [linesFrom, if_pos rfl]
        cases n with
        | zero => exact ⟨['\n'], rest, rfl, by rw [hlines, hlines]; rfl, by rw [hlines]; rfl⟩
        | succ n =>
            obtain ⟨front, back, rfl, hfront, hback⟩ := ih n []
            refine ⟨'\n' :: front, back, rfl, ?_, ?_⟩
            · rw [hlines, hlines, hfront, List.take_succ_cons]
            · rw [hlines, hback, List.drop_succ_cons]
      · have hlines (text : List Char) : linesFrom line (c :: text) = linesFrom (c :: line) text := by
          rw [linesFrom, if_neg hc]
        obtain ⟨front, back, rfl, hfront, hback⟩ := ih n (c :: line)
        exact ⟨c :: front, back, rfl, by rw [hlines, hlines, hfront], by rw [hlines, hback]⟩

/-- A text can be cut behind any number of its lines. -/
theorem lines_cut (n : Nat) (text : String) :
    ∃ front back, text = front ++ back ∧ lines front = (lines text).take n ∧
      lines back = (lines text).drop n := by
  cases n with
  | zero => exact ⟨"", text, by simp, rfl, rfl⟩
  | succ n =>
      obtain ⟨front, back, htext, hfront, hback⟩ := linesFrom_cut n [] text.toList
      refine ⟨.ofList front, .ofList back, ?_, ?_, ?_⟩
      · rw [← String.ofList_append, ← htext, String.ofList_toList]
      · rw [lines, String.toList_ofList, hfront, lines]
      · rw [lines, String.toList_ofList, hback, lines]

/-- What ends a line at a line feed; the characters of the line are given last first. -/
def lineEnd : List Char → List Char
  | '\r' :: _ => ['\r', '\n']
  | _ => ['\n']

/-- The text with each of its lines replaced, when the characters in `line`, last first, come before it. -/
def mapLinesFrom (f : List Char → List Char) (line : List Char) : List Char → List Char
  | [] => if line.isEmpty then [] else f line.reverse
  | c :: rest =>
    if c = '\n' then f (endLine line) ++ lineEnd line ++ mapLinesFrom f [] rest
    else mapLinesFrom f (c :: line) rest

/-- The text with each of its lines replaced; what ends the lines stays. -/
def mapLines (f : List Char → List Char) (text : String) : String :=
  .ofList (mapLinesFrom f [] text.toList)

/-- What can stand between two line ends. -/
def IsLine (line : List Char) : Prop :=
  '\n' ∉ line ∧ line.getLast? ≠ some '\r'

theorem linesFrom_lineEnd {line : List Char} (h : IsLine line) (before rest : List Char) :
    linesFrom line.reverse (lineEnd before ++ rest) = line :: linesFrom [] rest := by
  unfold lineEnd
  split
  · simp [linesFrom, endLine]
  · simp [linesFrom, endLine_reverse h.2]

theorem linesFrom_mapLinesFrom {f : List Char → List Char} {line text : List Char}
    (h : ∀ l ∈ linesFrom line text, IsLine (f l)) :
    ∃ blanks ≤ 1, linesFrom [] (mapLinesFrom f line text) ++ List.replicate blanks [] =
      (linesFrom line text).map f := by
  induction text generalizing line with
  | nil =>
      rw [linesFrom] at h ⊢
      rw [mapLinesFrom]
      split
      · exact ⟨0, Nat.zero_le _, rfl⟩
      · next hline =>
        rw [if_neg hline, List.forall_mem_singleton] at h
        rw [linesFrom_nil_of_feed_not_mem h.1]
        -- A last line that becomes blank is a line no more, as nothing ends it.
        split
        · next hblank =>
          rw [List.isEmpty_iff] at hblank
          exact ⟨1, Nat.le_refl _, by simp [hblank]⟩
        · exact ⟨0, Nat.zero_le _, by simp⟩
  | cons c rest ih =>
      rw [linesFrom] at h ⊢
      rw [mapLinesFrom]
      split
      · next hc =>
        rw [if_pos hc, List.forall_mem_cons] at h
        obtain ⟨blanks, hle, hrest⟩ := ih h.2
        refine ⟨blanks, hle, ?_⟩
        rw [List.append_assoc, linesFrom_append _ _ h.1.1, List.append_nil, linesFrom_lineEnd h.1,
          List.cons_append, hrest, List.map_cons]
      · next hc =>
        rw [if_neg hc] at h
        exact ih h

/-- The lines are replaced, except that a blank one at the end may be gone. -/
theorem lines_mapLines {f : List Char → List Char} {text : String} (h : ∀ line ∈ lines text, IsLine (f line)) :
    ∃ blanks ≤ 1, lines (mapLines f text) ++ List.replicate blanks [] = (lines text).map f := by
  rw [mapLines, lines, String.toList_ofList]
  exact linesFrom_mapLinesFrom h

/-! ## Positions -/

/-- The number of bytes of a text in UTF-8. -/
def size : List Char → Nat
  | [] => 0
  | c :: text => c.utf8Size + size text

@[simp] theorem size_nil : size [] = 0 := rfl

@[simp] theorem size_cons (c : Char) (text : List Char) : size (c :: text) = c.utf8Size + size text := rfl

@[simp] theorem size_append (front back : List Char) : size (front ++ back) = size front + size back := by
  induction front with
  | nil => simp
  | cons c front ih => simp [ih, Nat.add_assoc]

@[simp] theorem size_reverse (text : List Char) : size text.reverse = size text := by
  induction text with
  | nil => rfl
  | cons c text ih => simp [ih, Nat.add_comm]

/-- A position in a text, in bytes, between two characters or at an end. -/
def IsBoundary (text : List Char) (position : Nat) : Prop :=
  ∃ front back, text = front ++ back ∧ size front = position

theorem IsBoundary.le_size {text : List Char} {position : Nat} (h : IsBoundary text position) :
    position ≤ size text := by
  obtain ⟨front, back, rfl, rfl⟩ := h
  simp

end Text

end CallScript
