import CallScript.Proofs.Assembly.Reassembly

/-!
# Quoted byte strings

Every byte string can be written between quotes. The scanner and the reader of literals each have their
own idea of where a quoted text ends; on such a text they agree.
-/

namespace CallScript.Assembly

/-- A byte between quotes: printable ones stand for themselves, with a backslash in front of a backslash and
a quote; any other is given by its digits. -/
def escapeByte (b : UInt8) : List Char :=
  if b = 0x5c then ['\\', '\\']
  else if b = 0x22 then ['\\', '"']
  else if 0x20 ≤ b ∧ b ≤ 0x7e then [Char.ofUInt8 b]
  else '\\' :: 'x' :: Hex.digits b

def escape (bytes : Bytes) : List Char :=
  bytes.flatMap escapeByte

/-- The literal of a byte string. -/
def quote (bytes : Bytes) : String :=
  "\"" ++ String.ofList (escape bytes) ++ "\""

theorem toList_quote (bytes : Bytes) : (quote bytes).toList = '"' :: (escape bytes ++ ['"']) := by
  simp [quote]

/-- The ways to write a byte between quotes. -/
inductive Escapes : UInt8 → List Char → Prop
  | slash : Escapes 0x5c ['\\', '\\']
  | quote : Escapes 0x22 ['\\', '"']
  | printable {b : UInt8} : 0x20 ≤ b.toNat → b.toNat ≤ 0x7e → b ≠ 0x5c → b ≠ 0x22 → Escapes b [Char.ofUInt8 b]
  | digits (b : UInt8) : Escapes b ('\\' :: 'x' :: Hex.digits b)

theorem escapes_escapeByte (b : UInt8) : Escapes b (escapeByte b) := by
  unfold escapeByte
  split
  · next hb => exact hb ▸ .slash
  · next hslash =>
    split
    · next hb => exact hb ▸ .quote
    · next hquote =>
      split
      · next hrange =>
        exact .printable (UInt8.le_iff_toNat_le.mp hrange.1) (UInt8.le_iff_toNat_le.mp hrange.2) hslash hquote
      · exact .digits b

theorem ofUInt8_ne {b b' : UInt8} (h : b ≠ b') : Char.ofUInt8 b ≠ Char.ofUInt8 b' := by
  intro heq
  exact h (UInt8.toNat_inj.mp (congrArg Char.toNat heq))

/-! ## Scanning -/

theorem foldlM_next?_quoted {text : List Char} (h : ∀ c ∈ text, c ≠ '\\' ∧ c ≠ '"') :
    text.foldlM Nesting.next? (.quoted 0) = some (.quoted 0) := by
  induction text with
  | nil => rfl
  | cons c text ih =>
      obtain ⟨⟨hslash, hquote⟩, htext⟩ := List.forall_mem_cons.mp h
      rw [List.foldlM_cons, Nesting.next?, if_neg hslash, if_neg hquote]
      exact ih htext

theorem Escapes.keeps_quoted {b : UInt8} {text : List Char} (h : Escapes b text) :
    text.foldlM Nesting.next? (.quoted 0) = some (.quoted 0) := by
  cases h with
  | slash => rfl
  | quote => rfl
  | printable _ _ hslash hquote =>
      refine foldlM_next?_quoted fun c hc => ?_
      cases List.mem_singleton.mp hc
      exact ⟨ofUInt8_ne hslash, ofUInt8_ne hquote⟩
  | digits =>
      have hdigits : (Hex.digits b).foldlM Nesting.next? (.quoted 0) = some (.quoted 0) :=
        foldlM_next?_quoted fun c hc => ⟨Hex.ne_of_mem_digits hc (by decide), Hex.ne_of_mem_digits hc (by decide)⟩
      exact hdigits

theorem escape_keeps_quoted (bytes : Bytes) :
    (escape bytes).foldlM Nesting.next? (.quoted 0) = some (.quoted 0) := by
  induction bytes with
  | nil => rfl
  | cons b bytes ih =>
      rw [escape, List.flatMap_cons, List.foldlM_append, (escapes_escapeByte b).keeps_quoted]
      exact ih

theorem isToken_quote (bytes : Bytes) : IsToken (quote bytes).toList := by
  rw [toList_quote]
  refine ⟨List.cons_ne_nil _ _, ?_⟩
  have hopen : Nesting.next? (.plain 0) '"' = some (.quoted 0) := by decide
  rw [List.foldlM_cons, hopen, Option.bind_eq_bind, Option.bind_some, List.foldlM_append, escape_keeps_quoted]
  decide

theorem Escapes.feed_not_mem {b : UInt8} {text : List Char} (h : Escapes b text) : '\n' ∉ text := by
  cases h with
  | slash => decide
  | quote => decide
  | printable hlow _ _ _ =>
      have hne : b ≠ 0x0a := by
        rintro rfl
        exact absurd hlow (by decide)
      intro hfeed
      exact ofUInt8_ne hne (List.mem_singleton.mp hfeed).symm
  | digits =>
      have hdigits : '\n' ∉ Hex.digits b := fun hfeed => Hex.ne_of_mem_digits hfeed (by decide) rfl
      simp [hdigits]

theorem feed_not_mem_quote (bytes : Bytes) : '\n' ∉ (quote bytes).toList := by
  rw [toList_quote]
  simp only [escape, List.mem_cons, List.mem_append, List.mem_flatMap, List.not_mem_nil, or_false, not_or,
    not_exists, not_and]
  exact ⟨by decide, fun b _ => (escapes_escapeByte b).feed_not_mem, by decide⟩

/-! ## Reading -/

theorem utf8EncodeChar_ofUInt8 {b : UInt8} (h : b.toNat ≤ 0x7e) : String.utf8EncodeChar (Char.ofUInt8 b) = [b] := by
  have hsize : (Char.ofUInt8 b).utf8Size = 1 := by
    rw [Char.utf8Size_eq_one_iff, UInt32.le_iff_toNat_le]
    exact Nat.le_succ_of_le h
  have hbyte : (Char.ofUInt8 b).val.toUInt8 = b := UInt8.toUInt8_toUInt32 b
  rw [String.utf8EncodeChar_eq_singleton hsize, hbyte]

theorem unescape_cons {c : Char} (h : c ≠ '\\') (rest : List Char) :
    unescape (c :: rest) = (String.utf8EncodeChar c ++ ·) <$> unescape rest := by
  rw [unescape]
  all_goals simp [h]

theorem Escapes.unescape_append {b : UInt8} {text : List Char} (h : Escapes b text) (rest : List Char) :
    unescape (text ++ rest) = (b :: ·) <$> unescape rest := by
  cases h with
  | slash => rfl
  | quote => rfl
  | printable _ hhigh hslash _ =>
      rw [List.singleton_append, unescape_cons (ofUInt8_ne hslash), utf8EncodeChar_ofUInt8 hhigh]
      rfl
  | digits =>
      have hbyte := Hex.byte?_digits b
      simp only [Hex.digits] at hbyte
      simp only [Hex.digits, List.cons_append, List.nil_append, unescape, hbyte]

theorem unescape_escape (bytes : Bytes) : unescape (escape bytes) = .ok bytes := by
  induction bytes with
  | nil => rfl
  | cons b bytes ih =>
      have hrest : unescape (bytes.flatMap escapeByte) = .ok bytes := ih
      rw [escape, List.flatMap_cons, (escapes_escapeByte b).unescape_append, hrest]
      rfl

theorem parseString_quote (bytes : Bytes) : parseString (quote bytes) = .ok bytes := by
  have hunquote : unquote? (quote bytes).toList = some (escape bytes) := by
    simp [toList_quote, unquote?]
  simp only [parseString, hunquote, unescape_escape]

/-- The literal of a byte string gives that byte string, whatever bytes are in it. -/
theorem assemble_quote (aliases : Aliases) (bytes : Bytes) :
    assemble aliases ("slot str \"" ++ String.ofList (escape bytes) ++ "\"") =
      .ok { commands := [], state := [bytes] } := by
  have hsource : ("slot str \"" ++ String.ofList (escape bytes) ++ "\"").toList =
      wordsLine ["slot", "str", quote bytes] := by
    simp [wordsLine_cons_cons, wordsLine_singleton, toList_quote]
  have hfeed : '\n' ∉ wordsLine ["slot", "str", quote bytes] := by
    simpa [wordsLine_cons_cons, wordsLine_singleton] using feed_not_mem_quote bytes
  have hlines : Text.lines ("slot str \"" ++ String.ofList (escape bytes) ++ "\"") =
      [wordsLine ["slot", "str", quote bytes]] := by
    rw [Text.lines, hsource, Text.linesFrom_nil_of_feed_not_mem hfeed]
    simp [wordsLine_cons_cons]
  have hline := @Draft.addLine_literal aliases [] [] (by decide) "str" (quote bytes) bytes (by decide)
    (isToken_quote bytes) (parseString_quote bytes)
  rw [assemble, hlines, Draft.addLines, hline]
  rfl

end CallScript.Assembly
