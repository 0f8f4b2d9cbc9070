import CallScript.Assembly.Literal
import CallScript.Proofs.Arithmetic
import CallScript.Proofs.Except
import CallScript.Proofs.Text
import Mathlib.Data.Nat.Digits.Defs

/-!
# Integers in text

A numeral is read as the number it stands for, digit by digit with checked arithmetic on words. It is refused
exactly where a word cannot hold that number, in however many digits it is written.
-/

namespace CallScript

/-! ## Digits -/

theorem Text.digitValue_lt {c : Char} (h : isDigit c = true) : digitValue c < 10 := by
  simp only [isDigit, Bool.and_eq_true, decide_eq_true_eq, Char.le_def, UInt32.le_iff_toNat_le] at h
  have hc : c.toNat = c.val.toNat := rfl
  have hzero : '0'.toNat = 48 := rfl
  have hnine : '9'.val.toNat = 57 := rfl
  rw [digitValue, hc, hzero]
  omega

namespace Hex

theorem digit?_lt {c : Char} {d : Nat} (h : digit? c = some d) : d < 16 := by
  simp only [digit?, Char.le_def, UInt32.le_iff_toNat_le] at h
  have hc : c.toNat = c.val.toNat := rfl
  have hchars : '0'.val.toNat = 48 ∧ '9'.val.toNat = 57 ∧ 'a'.val.toNat = 97 ∧ 'f'.val.toNat = 102 ∧
    'A'.val.toNat = 65 ∧ 'F'.val.toNat = 70 := by decide
  have hnats : '0'.toNat = 48 ∧ 'a'.toNat = 97 ∧ 'A'.toNat = 65 := by decide
  split at h
  · cases h
    omega
  · split at h
    · cases h
      omega
    · split at h
      · cases h
        omega
      · cases h

/-- Bytes stand for the same number as the digits that they are read from, two for each. -/
theorem toNat_of_decodeDigits {digits : List Char} {bytes : Bytes} (h : decodeDigits digits = some bytes) :
    ∃ values, digits.mapM digit? = some values ∧ values.length = 2 * bytes.length ∧
      bytes.toNat = Nat.ofDigits 16 values.reverse := by
  fun_induction decodeDigits digits generalizing bytes with
  | case1 =>
      cases h
      exact ⟨[], rfl, rfl, rfl⟩
  | case2 => cases h
  | case3 hi lo rest ih =>
      simp only [Option.bind_eq_bind, Option.bind_eq_some_iff, Option.pure_def, Option.some.injEq] at h
      obtain ⟨high, hhigh, low, hlow, later, hrest, rfl⟩ := h
      obtain ⟨values, hvalues, hlength, hlater⟩ := ih hrest
      have hbyte : (UInt8.ofNat (high * 16 + low)).toNat = high * 16 + low := by
        have hhigh := digit?_lt hhigh
        have hlow := digit?_lt hlow
        exact UInt8.toNat_ofNat_of_lt' (by simp only [UInt8.size]; omega)
      have hpower : 256 ^ later.length = 16 ^ values.length := by
        rw [hlength, Nat.pow_mul]
      refine ⟨high :: low :: values, by simp [hhigh, hlow, hvalues], ?_, ?_⟩
      · simp only [List.length_cons, hlength]
        omega
      · rw [Bytes.toNat_cons, hbyte, hlater, hpower, Nat.ofDigits_reverse_cons, Nat.ofDigits_reverse_cons,
          List.length_cons, Nat.pow_succ]
        ring

theorem exists_decodeDigits {digits : List Char} {values : List Nat} (hvalues : digits.mapM digit? = some values)
    (heven : digits.length % 2 = 0) : ∃ bytes, decodeDigits digits = some bytes := by
  fun_induction decodeDigits digits generalizing values with
  | case1 => exact ⟨[], rfl⟩
  | case2 => cases heven
  | case3 hi lo rest ih =>
      simp only [List.mapM_cons, Option.bind_eq_bind, Option.bind_eq_some_iff, Option.pure_def] at hvalues
      obtain ⟨high, hhigh, _, ⟨low, hlow, later, hrest, -⟩, -⟩ := hvalues
      simp only [List.length_cons] at heven
      obtain ⟨bytes, hbytes⟩ := ih hrest (by omega)
      exact ⟨UInt8.ofNat (high * 16 + low) :: bytes, by simp only [hhigh, hlow, hbytes]; rfl⟩

end Hex

namespace Assembly

/-! ## Integers -/

theorem pushDigit_eq_ite {c : Char} (h : Text.isDigit c = true) (acc : Word) :
    pushDigit acc c =
      if acc.toNat * 10 + Text.digitValue c < 2 ^ 256 then some (Word.ofNat (acc.toNat * 10 + Text.digitValue c))
      else none := by
  have hten : (Word.ofNat 10).toNat = 10 := by decide
  have hdigit : (Word.ofNat (Text.digitValue c)).toNat = Text.digitValue c := by
    have hlt := Text.digitValue_lt h
    exact Word.toNat_ofNat (by omega)
  simp only [pushDigit, Word.mul?_eq_ite, Word.add?_eq_ite, hten, hdigit, Option.bind_eq_bind]
  by_cases hshift : acc.toNat * 10 < 2 ^ 256
  · rw [if_pos hshift, Option.bind_some, Word.toNat_ofNat hshift]
  · rw [if_neg hshift, if_neg (by omega), Option.bind_none]

/-- Digits are refused, sooner or later, if the number that all of them stand for takes more than 256 bits, and
only then. -/
theorem foldlM_pushDigit {digits : List Char} (h : ∀ c ∈ digits, Text.isDigit c = true) (start : Word) :
    let number := start.toNat * 10 ^ digits.length + Nat.ofDigits 10 (digits.map Text.digitValue).reverse
    digits.foldlM pushDigit start = if number < 2 ^ 256 then some (Word.ofNat number) else none := by
  induction digits generalizing start with
  | nil =>
      simp only [List.length_nil, Nat.pow_zero, Nat.mul_one, List.map_nil, List.reverse_nil, Nat.ofDigits_nil,
        Nat.add_zero, if_pos (Word.toNat_lt start), Word.ofNat_toNat]
      rfl
  | cons c digits ih =>
      obtain ⟨hc, hdigits⟩ := List.forall_mem_cons.mp h
      intro number
      have hnumber : number = (start.toNat * 10 + Text.digitValue c) * 10 ^ digits.length +
          Nat.ofDigits 10 (digits.map Text.digitValue).reverse := by
        simp only [number, List.length_cons, List.map_cons, Nat.ofDigits_reverse_cons, List.length_map,
          Nat.pow_succ]
        ring
      rw [List.foldlM_cons, pushDigit_eq_ite hc]
      by_cases hfirst : start.toNat * 10 + Text.digitValue c < 2 ^ 256
      · rw [if_pos hfirst, Option.bind_eq_bind, Option.bind_some, ih hdigits, Word.toNat_ofNat hfirst, hnumber]
      · -- The digits that follow make the number no smaller.
        have hle : (start.toNat * 10 + Text.digitValue c) * 1 ≤
            (start.toNat * 10 + Text.digitValue c) * 10 ^ digits.length :=
          Nat.mul_le_mul_left _ (Nat.one_le_pow _ _ (by decide))
        rw [if_neg hfirst, if_neg (by omega)]
        rfl

theorem toNat_replicate_zero (n : Nat) : Bytes.toNat (List.replicate n 0) = 0 := by
  induction n with
  | zero => rfl
  | succ n ih =>
      rw [List.replicate_succ, Bytes.toNat_cons, ih]
      rfl

/-- Zeros in front fill a word up and do not change the number. -/
theorem ofBytes?_pad (bytes : Bytes) :
    Word.ofBytes? (List.replicate (32 - bytes.length) 0 ++ bytes) =
      if bytes.length ≤ 32 then some (Word.ofNat bytes.toNat) else none := by
  have hlength : (List.replicate (32 - bytes.length) (0 : UInt8) ++ bytes).length = max 32 bytes.length := by
    rw [List.length_append, List.length_replicate]
    omega
  have hvalue : Bytes.toNat (List.replicate (32 - bytes.length) 0 ++ bytes) = bytes.toNat := by
    rw [Bytes.toNat_append, toNat_replicate_zero, Nat.mul_zero, Nat.zero_add]
  rw [Word.ofBytes?, FixedBytes.ofBytes?]
  by_cases hle : bytes.length ≤ 32
  · have hpadded : (List.replicate (32 - bytes.length) (0 : UInt8) ++ bytes).length = 32 :=
      hlength.trans (Nat.max_eq_left hle)
    rw [dif_pos hpadded, if_pos hle, Option.some.injEq, ← hvalue]
    apply FixedBytes.ext
    have hbytes := Bytes.ofNat_toNat (List.replicate (32 - bytes.length) 0 ++ bytes)
    rw [hpadded] at hbytes
    exact hbytes.symm
  · rw [dif_neg (by omega), if_neg hle]

theorem isMarked_iff {text : String} : isMarked text = true ↔ ∃ digits, text.toList = '0' :: 'x' :: digits := by
  unfold isMarked
  split
  · next digits htext => exact iff_of_true rfl ⟨digits, htext⟩
  · next hother => exact iff_of_false nofun fun ⟨digits, htext⟩ => hother digits htext

theorem parseInteger_decimal {text : String} (h : ∀ digits, text.toList ≠ '0' :: 'x' :: digits) {w : Word} :
    let number := Nat.ofDigits 10 (text.toList.map Text.digitValue).reverse
    parseInteger text = .ok w ↔
      text ≠ "" ∧ (∀ c ∈ text.toList, Text.isDigit c = true) ∧ number < 2 ^ 256 ∧ w = Word.ofNat number := by
  intro number
  have hmark : ¬ isMarked text = true := fun hmark => (isMarked_iff.mp hmark).elim h
  have hempty : text.toList.isEmpty = true ↔ text = "" := by simp
  rw [parseInteger, if_neg hmark, Except.ite_error_eq_ok]
  simp only [Bool.or_eq_true, hempty, Bool.not_eq_true', ← Bool.not_eq_true, not_or, not_not,
    List.all_eq_true, and_assoc]
  refine and_congr_right fun hne => and_congr_right fun hdigits => ?_
  have hfold : text.toList.foldlM pushDigit Word.zero =
      if number < 2 ^ 256 then some (Word.ofNat number) else none := by
    simpa only [Word.toNat_zero, Nat.zero_mul, Nat.zero_add] using foldlM_pushDigit hdigits Word.zero
  rw [hfold]
  by_cases hlt : number < 2 ^ 256
  · rw [if_pos hlt, Except.ok.injEq, eq_comm]
    exact (and_iff_right hlt).symm
  · rw [if_neg hlt]
    exact iff_of_false nofun fun hfits => hlt hfits.1

theorem parseInteger_hex {text : String} {digits : List Char} (h : text.toList = '0' :: 'x' :: digits) {w : Word} :
    parseInteger text = .ok w ↔
      ∃ bytes, Hex.decodeDigits digits = some bytes ∧ bytes.length ≤ 32 ∧ w = Word.ofNat bytes.toNat := by
  have hmark : isMarked text = true := isMarked_iff.mpr ⟨digits, h⟩
  have hdecode : Hex.decode text = Hex.decodeDigits digits := by rw [Hex.decode, h]; rfl
  rw [parseInteger, if_pos hmark, hdecode]
  cases Hex.decodeDigits digits with
  | none => simp
  | some bytes =>
      simp only [ofBytes?_pad]
      by_cases hle : bytes.length ≤ 32
      · simp [hle, eq_comm]
      · simp [hle]

/-- Integers are read exactly. In decimal digits, any number of them, one is read if it is below `2 ^ 256`; behind
`0x`, in up to 64 hexadecimal digits if they come in pairs. The word that is read has the value that the
digits have as a numeral. -/
theorem parseInteger_exact (text : String) :
    ((∀ digits, text.toList ≠ '0' :: 'x' :: digits) →
      let number := Nat.ofDigits 10 (text.toList.map Text.digitValue).reverse
      ((∃ w, parseInteger text = .ok w) ↔
        text ≠ "" ∧ (∀ c ∈ text.toList, Text.isDigit c = true) ∧ number < 2 ^ 256) ∧
      ∀ w, parseInteger text = .ok w → w.toNat = number) ∧
    ∀ digits, text.toList = '0' :: 'x' :: digits →
      ((∃ w, parseInteger text = .ok w) ↔
        digits.length % 2 = 0 ∧ digits.length ≤ 64 ∧ ∃ values, digits.mapM Hex.digit? = some values) ∧
      ∀ w, parseInteger text = .ok w →
        ∃ values, digits.mapM Hex.digit? = some values ∧ w.toNat = Nat.ofDigits 16 values.reverse := by
  constructor
  · intro hdecimal number
    refine ⟨?_, ?_⟩
    · constructor
      · rintro ⟨w, hw⟩
        obtain ⟨hne, hdigits, hlt, -⟩ := (parseInteger_decimal hdecimal).mp hw
        exact ⟨hne, hdigits, hlt⟩
      · rintro ⟨hne, hdigits, hlt⟩
        exact ⟨_, (parseInteger_decimal hdecimal).mpr ⟨hne, hdigits, hlt, rfl⟩⟩
    · intro w hw
      obtain ⟨-, -, hlt, rfl⟩ := (parseInteger_decimal hdecimal).mp hw
      exact Word.toNat_ofNat hlt
  · intro digits htext
    refine ⟨?_, ?_⟩
    · constructor
      · rintro ⟨w, hw⟩
        obtain ⟨bytes, hbytes, hle, -⟩ := (parseInteger_hex htext).mp hw
        obtain ⟨values, hvalues, -, -⟩ := Hex.toNat_of_decodeDigits hbytes
        have hlength := Hex.length_of_decodeDigits hbytes
        exact ⟨by omega, by omega, values, hvalues⟩
      · rintro ⟨heven, hle, values, hvalues⟩
        obtain ⟨bytes, hbytes⟩ := Hex.exists_decodeDigits hvalues heven
        have hlength := Hex.length_of_decodeDigits hbytes
        exact ⟨_, (parseInteger_hex htext).mpr ⟨bytes, hbytes, by omega, rfl⟩⟩
    · intro w hw
      obtain ⟨bytes, hbytes, hle, rfl⟩ := (parseInteger_hex htext).mp hw
      obtain ⟨values, hvalues, -, hvalue⟩ := Hex.toNat_of_decodeDigits hbytes
      have hlt : bytes.toNat < 2 ^ 256 := by
        have hbound := Bytes.toNat_lt bytes
        have hpower : 256 ^ bytes.length ≤ 256 ^ 32 := Nat.pow_le_pow_right (by decide) hle
        omega
      exact ⟨values, hvalues, (Word.toNat_ofNat hlt).trans hvalue⟩

/-- The largest integer behind zeros, the one after it, and digits behind `0x`. -/
theorem parseInteger_exact_largest :
    let largest := String.ofList ('0' :: '0' :: Nat.toDigits 10 (2 ^ 256 - 1))
    let larger := String.ofList (Nat.toDigits 10 (2 ^ 256))
    (∃ w, parseInteger largest = .ok w ∧ w.toNat = 2 ^ 256 - 1) ∧ (¬ ∃ w, parseInteger larger = .ok w) ∧
      (∃ w, parseInteger "0x1F" = .ok w ∧ w.toNat = 31) ∧ ¬ ∃ w, parseInteger "0x1F0" = .ok w := by
  intro largest larger
  have hdecimal (text : List Char) (h : text.all Text.isDigit = true) (digits : List Char) :
      (String.ofList text).toList ≠ '0' :: 'x' :: digits := by
    rw [String.toList_ofList]
    rintro rfl
    exact absurd h (by simp [Text.isDigit])
  have hdigits : ('0' :: '0' :: Nat.toDigits 10 (2 ^ 256 - 1)).all Text.isDigit = true := by decide +kernel
  obtain ⟨hlargest, hvalue⟩ := (parseInteger_exact largest).1 (hdecimal _ hdigits)
  obtain ⟨hlarger, -⟩ := (parseInteger_exact larger).1 (hdecimal _ (by decide +kernel))
  obtain ⟨hhex, hhexValue⟩ := (parseInteger_exact "0x1F").2 ['1', 'F'] (by decide)
  obtain ⟨hodd, -⟩ := (parseInteger_exact "0x1F0").2 ['1', 'F', '0'] (by decide)
  simp only [largest, larger, String.toList_ofList] at hlargest hvalue hlarger ⊢
  refine ⟨?_, ?_, ?_, ?_⟩
  · obtain ⟨w, hw⟩ := hlargest.mpr ⟨by simp, List.all_eq_true.mp hdigits, by decide +kernel⟩
    exact ⟨w, hw, (hvalue w hw).trans (by decide +kernel)⟩
  · rw [hlarger]
    exact fun h => absurd h.2.2 (by decide +kernel)
  · obtain ⟨w, hw⟩ := hhex.mpr ⟨rfl, by decide, [1, 15], rfl⟩
    obtain ⟨values, hvalues, hword⟩ := hhexValue w hw
    cases hvalues
    exact ⟨w, hw, hword⟩
  · rw [hodd]
    exact fun h => absurd h.1 (by decide)

end Assembly

end CallScript
