import CallScript.Word.Basic
import Mathlib.Algebra.Group.Nat.Defs
import Mathlib.Tactic.Ring

/-!
# Byte strings

The numeral of a number has that number as its value, as long as its bytes suffice. Strings of one
length that stand one after the other are told apart again by cutting. A piece is known by where it
begins.
-/

namespace CallScript

namespace Bytes

/-! ## Numerals -/

theorem toNatLE_ofNatLE (size value : Nat) : toNatLE (ofNatLE size value) = value % 256 ^ size := by
  induction size generalizing value with
  | zero => simp [ofNatLE, toNatLE, Nat.mod_one]
  | succ size ih =>
      have hbyte : (UInt8.ofNat (value % 256)).toNat = value % 256 := by
        rw [UInt8.toNat_ofNat']
        omega
      rw [ofNatLE, toNatLE, hbyte, ih, Nat.pow_succ, Nat.mul_comm (256 ^ size), Nat.mod_mul]

theorem ofNatLE_toNatLE (bytes : Bytes) : ofNatLE bytes.length (toNatLE bytes) = bytes := by
  induction bytes with
  | nil => rfl
  | cons b rest ih =>
      have hbyte := b.toNat_lt
      have hlow : (b.toNat + 256 * toNatLE rest) % 256 = b.toNat := by omega
      have hhigh : (b.toNat + 256 * toNatLE rest) / 256 = toNatLE rest := by omega
      rw [List.length_cons, toNatLE, ofNatLE, hlow, hhigh, ih, UInt8.ofNat_toNat]

theorem toNatLE_lt (bytes : Bytes) : toNatLE bytes < 256 ^ bytes.length := by
  induction bytes with
  | nil => exact Nat.zero_lt_one
  | cons b rest ih =>
      have hbyte := b.toNat_lt
      rw [List.length_cons, toNatLE, Nat.pow_succ]
      omega

theorem toNat_ofNat (size value : Nat) : toNat (ofNat size value) = value % 256 ^ size := by
  rw [toNat, ofNat, List.reverse_reverse, toNatLE_ofNatLE]

theorem ofNat_toNat (bytes : Bytes) : ofNat bytes.length (toNat bytes) = bytes := by
  rw [ofNat, toNat, ← List.length_reverse, ofNatLE_toNatLE, List.reverse_reverse]

theorem toNat_lt (bytes : Bytes) : toNat bytes < 256 ^ bytes.length := by
  rw [toNat, ← List.length_reverse]
  exact toNatLE_lt bytes.reverse

theorem toNatLE_append (front back : Bytes) :
    toNatLE (front ++ back) = toNatLE front + 256 ^ front.length * toNatLE back := by
  induction front with
  | nil => simp [toNatLE]
  | cons b rest ih =>
      rw [List.cons_append, toNatLE, toNatLE, ih, List.length_cons, Nat.pow_succ]
      ring

theorem toNat_append (front back : Bytes) :
    toNat (front ++ back) = 256 ^ back.length * toNat front + toNat back := by
  rw [toNat, List.reverse_append, toNatLE_append, List.length_reverse, Nat.add_comm]
  rfl

/-! ## Pieces -/

theorem length_flatMap_bytes {n : Nat} (records : List (FixedBytes n)) :
    (records.flatMap (·.bytes)).length = records.length * n := by
  induction records with
  | nil => simp
  | cons record records ih =>
      simp only [List.flatMap_cons, List.length_append, record.length_eq, ih, List.length_cons,
        Nat.succ_mul]
      omega

theorem pieces_flatMap {n : Nat} (records : List (FixedBytes n)) :
    pieces n records.length (records.flatMap (·.bytes)) = records.map (·.bytes) := by
  induction records with
  | nil => rfl
  | cons record records ih =>
      have hcut := record.length_eq
      simp only [List.length_cons, List.flatMap_cons, pieces, List.map_cons, List.cons.injEq]
      exact ⟨List.take_left' hcut, by rw [List.drop_left' hcut, ih]⟩

/-- Strings of one length, one after the other, are told apart by cutting. -/
theorem chunks_flatMap {n : Nat} (hn : 0 < n) (records : List (FixedBytes n)) :
    chunks n (records.flatMap (·.bytes)) = records.map (·.bytes) := by
  have hcount : (records.length * n + (n - 1)) / n = records.length := by
    rw [Nat.add_comm, Nat.add_mul_div_right _ _ hn, Nat.div_eq_of_lt (by omega), Nat.zero_add]
  rw [chunks, length_flatMap_bytes, hcount, pieces_flatMap]

end Bytes

/-! ## Words -/

namespace Word

theorem toNat_ofNat {value : Nat} (h : value < 2 ^ 256) : (ofNat value).toNat = value := by
  have hvalue : (ofNat value).toNat = value % 256 ^ 32 := Bytes.toNat_ofNat 32 value
  rw [hvalue]
  exact Nat.mod_eq_of_lt (by omega)

/-- A length or a position is read back from the word it is written as. -/
theorem toUInt64?_ofNat {value : Nat} (h : value < UInt64.size) :
    (ofNat value).toUInt64? = some (UInt64.ofNat value) := by
  have hvalue : (ofNat value).toNat = value := toNat_ofNat (by simp only [UInt64.size] at h; omega)
  have hbits : (ofNat value).toNat < 1 <<< 64 := by
    rw [hvalue]
    exact h
  rw [toUInt64?, toNat?, if_pos hbits, hvalue]
  rfl

@[simp] theorem length_bytes (w : Word) : w.bytes.length = 32 := w.length_eq

@[simp] theorem ofBytes?_bytes (w : Word) : ofBytes? w.bytes = some w := by
  simp [ofBytes?, FixedBytes.ofBytes?]

end Word

/-! ## Positions -/

/-- A piece of a byte string, at the position at which it begins. -/
def Bytes.StandsAt (data : Bytes) (start : Nat) (piece : Bytes) : Prop :=
  ∃ front back, data = front ++ piece ++ back ∧ front.length = start

namespace Bytes.StandsAt

variable {data piece : Bytes} {start : Nat}

theorem behind (front : Bytes) {rest : Bytes} (h : rest.StandsAt start piece) :
    (front ++ rest).StandsAt (front.length + start) piece := by
  obtain ⟨left, right, rfl, rfl⟩ := h
  exact ⟨front ++ left, right, by simp, by simp⟩

theorem inFront {front rest : Bytes} (h : front.StandsAt start piece) :
    (front ++ rest).StandsAt start piece := by
  obtain ⟨left, right, rfl, rfl⟩ := h
  exact ⟨left, right ++ rest, by simp, rfl⟩

theorem left {front rest : Bytes} (h : data.StandsAt start (front ++ rest)) :
    data.StandsAt start front := by
  obtain ⟨left, right, rfl, rfl⟩ := h
  exact ⟨left, rest ++ right, by simp, rfl⟩

theorem right {front rest : Bytes} (h : data.StandsAt start (front ++ rest)) :
    data.StandsAt (start + front.length) rest := by
  obtain ⟨left, right, rfl, rfl⟩ := h
  exact ⟨left ++ front, right, by simp, by simp⟩

theorem trans {inner : Bytes} {offset : Nat} (h : data.StandsAt start piece)
    (hinner : piece.StandsAt offset inner) : data.StandsAt (start + offset) inner := by
  obtain ⟨left, right, rfl, rfl⟩ := h
  obtain ⟨left', right', rfl, rfl⟩ := hinner
  exact ⟨left ++ left', right' ++ right, by simp, by simp⟩

theorem stop_le (h : data.StandsAt start piece) : start + piece.length ≤ data.length := by
  obtain ⟨left, right, rfl, rfl⟩ := h
  simp

theorem slice? (h : data.StandsAt start piece) :
    data.slice? start (start + piece.length) = some piece := by
  have hstop := h.stop_le
  obtain ⟨left, right, rfl, rfl⟩ := h
  rw [Bytes.slice?, if_pos ⟨by omega, hstop⟩]
  simp

end Bytes.StandsAt

end CallScript
