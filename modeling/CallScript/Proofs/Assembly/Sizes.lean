import CallScript.Proofs.Assembly.Canonical
import CallScript.Proofs.Assembly.Scanning
import CallScript.Proofs.Codec

/-!
# What a text can say in its size

A line adds at most one command or one slot, and a slot takes no more bytes than the text that says it,
unless it is a word. A script from a text that can be counted in 64 bits can itself be counted so.
-/

namespace CallScript

namespace Text

theorem length_le_size (text : List Char) : text.length ≤ size text := by
  induction text with
  | nil => exact Nat.le_refl 0
  | cons c text ih =>
      have hpos := c.utf8Size_pos
      simp only [List.length_cons, size_cons]
      omega

theorem length_linesFrom_le (line text : List Char) :
    (linesFrom line text).length ≤ text.length + if line.isEmpty then 0 else 1 := by
  induction text generalizing line with
  | nil =>
      rw [linesFrom]
      split <;> simp
  | cons c text ih =>
      rw [linesFrom]
      split
      · have hrest := ih []
        simp only [List.isEmpty_nil, ↓reduceIte] at hrest
        simp only [List.length_cons]
        omega
      · have hrest := ih (c :: line)
        simp only [List.isEmpty_cons, Bool.false_eq_true, ↓reduceIte] at hrest
        simp only [List.length_cons]
        omega

theorem size_endLine_le (line : List Char) : size (endLine line) ≤ size line := by
  unfold endLine
  split
  · rw [size_reverse, size_cons]
    omega
  · rw [size_reverse]

theorem size_le_of_mem_linesFrom {line text : List Char} :
    ∀ l ∈ linesFrom line text, size l ≤ size line + size text := by
  induction text generalizing line with
  | nil =>
      rw [linesFrom]
      split <;> simp
  | cons c text ih =>
      rw [linesFrom]
      split
      · rw [List.forall_mem_cons]
        have hline := size_endLine_le line
        refine ⟨by omega, fun l hl => ?_⟩
        have hrest := ih l hl
        rw [size_nil] at hrest
        rw [size_cons]
        omega
      · intro l hl
        have hrest := ih l hl
        rw [size_cons] at hrest ⊢
        omega

end Text

namespace Assembly

theorem length_unescape_le {text : List Char} {bytes : Bytes} (h : unescape text = .ok bytes) :
    bytes.length ≤ Text.size text := by
  have hslash : '\\'.utf8Size = 1 := rfl
  fun_induction unescape text generalizing bytes with
  | case1 => cases h; exact Nat.zero_le _
  | case2 | case10 | case12 | case13 => cases h
  | case3 rest ih | case4 rest ih | case5 rest ih | case6 rest ih | case7 rest ih | case8 rest ih
  | case9 _ _ rest _ _ ih =>
      obtain ⟨later, hrest, rfl⟩ := Except.map_eq_ok.mp h
      have hlater := ih hrest
      simp only [List.length_cons, Text.size_cons, hslash]
      omega
  | case11 =>
      cases h
      simp only [List.length_singleton, Text.size_cons, hslash]
      omega
  | case14 c rest _ _ _ _ _ _ _ _ _ _ ih =>
      obtain ⟨later, hrest, rfl⟩ := Except.map_eq_ok.mp h
      have hlater := ih hrest
      simp only [List.length_append, String.length_utf8EncodeChar, Text.size_cons]
      omega

theorem length_parseString_le {text : String} {bytes : Bytes} (h : parseString text = .ok bytes) :
    bytes.length ≤ Text.size text.toList := by
  unfold parseString at h
  split at h
  · next inner hinner =>
    have hle := length_unescape_le h
    rw [unquote?_eq_some.mp hinner, Text.size_cons, Text.size_append]
    omega
  · cases h

theorem length_unmark_le (text : List Char) : (Hex.unmark text).length ≤ text.length := by
  unfold Hex.unmark
  split
  · exact Nat.le_add_right _ 2
  · exact Nat.le_add_right _ 2
  · exact Nat.le_refl _

theorem length_parseHex_le {text : String} {bytes : Bytes} (h : parseHex text = .ok bytes) :
    bytes.length ≤ Text.size text.toList := by
  unfold parseHex at h
  split at h
  · next found hdecode =>
    cases h
    have hdigits := Hex.length_of_decodeDigits hdecode
    have hunmark := length_unmark_le text.toList
    have hsize := Text.length_le_size text.toList
    omega
  · cases h

/-- A slot takes no more bytes than its literal, or is a word. -/
theorem length_parseLiteral_le {aliases : Aliases} {kind literal : String} {value : Bytes}
    (h : parseLiteral aliases kind literal = .ok value) : value.length ≤ max 32 (Text.size literal.toList) := by
  unfold parseLiteral at h
  split at h
  · obtain ⟨w, -, rfl⟩ := Except.map_eq_ok.mp h
    rw [w.length_eq]
    omega
  · obtain ⟨bytes, -, h⟩ := Except.bind_eq_ok.mp h
    split at h
    · cases h
      omega
    · cases h
  · obtain ⟨address, -, rfl⟩ := Except.map_eq_ok.mp h
    rw [(Word.ofAddress address).length_eq]
    omega
  · split at h
    · cases h
      rw [(Word.ofBool true).length_eq]
      omega
    · cases h
      rw [(Word.ofBool false).length_eq]
      omega
    · cases h
  · have hle := length_parseString_le h
    omega
  · have hle := length_parseHex_le h
    omega
  · cases h

end Assembly

/-- The numbers of commands and of the bytes in a slot are limited. -/
structure Script.Within (s : Script) (commands bytes : Nat) : Prop where
  commands : s.commands.length ≤ commands
  slots : ∀ slot ∈ s.state, slot.length ≤ bytes

namespace Assembly

variable {d d' : Draft} {commands bytes : Nat}

theorem Draft.within_addLine {line : List Char} (hd : d.script.Within commands bytes) (hword : 32 ≤ bytes)
    (hsize : Text.size line ≤ bytes) (h : d.addLine line = .ok d') : d'.script.Within (commands + 1) bytes := by
  obtain ⟨tokens, htokens, h⟩ := Except.bind_eq_ok.mp h
  have hcommands := Nat.le_succ_of_le hd.commands
  obtain ⟨-, rfl⟩ | ⟨first, kind, literal, value, hline, -, -, hvalue, rfl⟩ | ⟨_, _, _, _, _, -, -, -, -, rfl⟩ |
    ⟨_, _, _, command, -, -, -, -, -, rfl⟩ := addTokens_cases h
  · exact ⟨hcommands, hd.slots⟩
  · refine ⟨hcommands, fun slot hslot => ?_⟩
    rcases List.mem_append.mp hslot with hold | hnew
    · exact hd.slots slot hold
    · -- The literal stands in the line, which bounds its size.
      obtain ⟨front, back, rfl, -⟩ := (tokenize_eq_ok.mp htokens).standsIn literal (by simp [hline])
      have hle := length_parseLiteral_le hvalue
      simp only [Text.size_append] at hsize
      rw [List.mem_singleton.mp hnew]
      omega
  · exact ⟨hcommands, hd.slots⟩
  · refine ⟨?_, hd.slots⟩
    rw [List.length_append, List.length_singleton]
    exact Nat.succ_le_succ hd.commands

theorem Draft.within_addLines {number : Nat} {ls : List (List Char)}
    (hd : d.script.Within commands bytes) (hword : 32 ≤ bytes) (hsize : ∀ line ∈ ls, Text.size line ≤ bytes)
    (h : d.addLines number ls = .ok d') : d'.script.Within (commands + ls.length) bytes := by
  induction ls generalizing d number commands with
  | nil =>
      cases h
      exact hd
  | cons line ls ih =>
      obtain ⟨hline, hls⟩ := List.forall_mem_cons.mp hsize
      unfold addLines at h
      split at h
      · cases h
      · next next hnext =>
        have hwithin := ih (Draft.within_addLine hd hword hline hnext) hls h
        rwa [Nat.add_assoc, Nat.add_comm 1] at hwithin

/-- What a text of fewer than 2⁶⁴ bytes says can be counted with 64 bits. -/
theorem fits_of_assemble {aliases : Aliases} {source : String} {script : Script}
    (h : assemble aliases source = .ok script) (hsize : Text.size source.toList < UInt64.size) :
    script.Fits := by
  have hslots := (canonical_of_assemble h).length_le
  obtain ⟨draft, hdraft, hpure⟩ := Except.bind_eq_ok.mp h
  cases hpure
  have hcount := Text.length_linesFrom_le [] source.toList
  have hlength := Text.length_le_size source.toList
  have hempty : Script.Within {} 0 (max 32 (Text.size source.toList)) := ⟨Nat.le_refl _, fun _ hmem => by cases hmem⟩
  have hlines : ∀ line ∈ Text.lines source, Text.size line ≤ max 32 (Text.size source.toList) := by
    intro line hline
    have hle := Text.size_le_of_mem_linesFrom line hline
    rw [Text.size_nil] at hle
    omega
  have hwithin := Draft.within_addLines hempty (by omega) hlines hdraft
  refine ⟨?_, ?_, fun slot hslot => ?_⟩
  · have hcommands := hwithin.commands
    simp only [List.isEmpty_nil, ↓reduceIte] at hcount
    rw [Text.lines] at hcommands
    omega
  · exact Nat.lt_of_le_of_lt hslots (by decide)
  · have hbytes := hwithin.slots slot hslot
    simp only [UInt64.size] at hsize ⊢
    omega

end Assembly

end CallScript
