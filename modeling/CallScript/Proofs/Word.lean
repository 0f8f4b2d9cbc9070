import CallScript.Proofs.Bytes
import CallScript.Word.Arithmetic

/-!
# Checked arithmetic is exact

Limb by limb, with carries and borrows, sums and differences of words are those of their values. One that
is refused does not fit into a word.
-/

namespace CallScript

namespace FixedBytes

variable {n : Nat} {a b : FixedBytes n}

theorem toNat_injective (h : a.toNat = b.toNat) : a = b := by
  have hbytes : Bytes.ofNat a.bytes.length a.bytes.toNat = Bytes.ofNat b.bytes.length b.bytes.toNat := by
    rw [a.length_eq, b.length_eq]
    exact congrArg (Bytes.ofNat n) h
  rw [Bytes.ofNat_toNat, Bytes.ofNat_toNat] at hbytes
  exact FixedBytes.ext hbytes

theorem isZero_iff : a.isZero = true ↔ a = zero n := by
  simp only [isZero, List.all_eq_true, beq_iff_eq]
  constructor
  · intro h
    exact FixedBytes.ext (List.eq_replicate_iff.mpr ⟨a.length_eq, h⟩)
  · rintro rfl b hb
    exact List.eq_of_mem_replicate hb

end FixedBytes

namespace Word

theorem toNat_lt (w : Word) : w.toNat < 2 ^ 256 := by
  have h := Bytes.toNat_lt w.bytes
  rw [w.length_eq] at h
  exact h

theorem ofNat_toNat (w : Word) : ofNat w.toNat = w :=
  FixedBytes.toNat_injective (toNat_ofNat (toNat_lt w))

@[simp] theorem toNat_zero : zero.toNat = 0 := by decide

/-! ## Limbs -/

/-- The number that four limbs stand for. -/
def Limbs.value (x : Limbs) : Nat :=
  x.l0.toNat + UInt64.size * (x.l1.toNat + UInt64.size * (x.l2.toNat + UInt64.size * x.l3.toNat))

theorem length_limb (w : Word) {start : Nat} (h : start ≤ 24) :
    ((w.bytes.drop start).take 8).length = 8 := by
  rw [List.length_take, List.length_drop, w.length_eq]
  omega

theorem toNat_limb (w : Word) (i : Nat) :
    (w.limb i).toNat = Bytes.toNat ((w.bytes.drop (24 - 8 * i)).take 8) := by
  have hlt := Bytes.toNat_lt ((w.bytes.drop (24 - 8 * i)).take 8)
  rw [length_limb w (Nat.sub_le ..)] at hlt
  exact UInt64.toNat_ofNat_of_lt' hlt

theorem toNat_drop (w : Word) (start : Nat) :
    Bytes.toNat (w.bytes.drop start) =
      256 ^ (24 - start) * Bytes.toNat ((w.bytes.drop start).take 8) +
        Bytes.toNat (w.bytes.drop (start + 8)) := by
  conv_lhs => rw [← List.take_append_drop 8 (w.bytes.drop start)]
  rw [Bytes.toNat_append, List.drop_drop, List.length_drop, w.length_eq]
  congr 3
  omega

theorem value_limbs (w : Word) : w.limbs.value = w.toNat := by
  have h0 := toNat_drop w 0
  have h1 := toNat_drop w 8
  have h2 := toNat_drop w 16
  have h3 := toNat_drop w 24
  have hend : Bytes.toNat (w.bytes.drop 32) = 0 := by
    rw [List.drop_eq_nil_of_le (Nat.le_of_eq w.length_eq)]
    rfl
  have hword : Bytes.toNat (w.bytes.drop 0) = w.toNat := rfl
  simp only [Nat.reduceAdd, Nat.reduceSub, Nat.reducePow, hend, hword] at h0 h1 h2 h3
  simp only [limbs, Limbs.value, UInt64.size, toNat_limb, Nat.reduceMul, Nat.reduceSub]
  omega

theorem toNat_ofLimbs (x : Limbs) : (ofLimbs x).toNat = x.value := by
  have hlimb (limb : UInt64) : Bytes.toNat (Bytes.ofNat 8 limb.toNat) = limb.toNat := by
    rw [Bytes.toNat_ofNat]
    exact Nat.mod_eq_of_lt limb.toNat_lt
  have hend : Bytes.toNat [] = 0 := rfl
  change Bytes.toNat ([x.l3, x.l2, x.l1, x.l0].flatMap fun limb => Bytes.ofNat 8 limb.toNat) = x.value
  simp only [List.flatMap_cons, List.flatMap_nil, Bytes.toNat_append, hlimb, hend, List.length_append,
    Bytes.length_ofNat, List.length_nil, Limbs.value, UInt64.size, Nat.reduceAdd, Nat.reducePow]
  omega

/-! ## Sums and differences -/

theorem toNat_toUInt64 (b : Bool) : b.toUInt64.toNat = b.toNat := by
  cases b <;> rfl

theorem toNat_or (p q : Prop) [Decidable p] [Decidable q] :
    (decide p || decide q).toNat = if p ∨ q then 1 else 0 := by
  by_cases hp : p <;> by_cases hq : q <;> simp [hp, hq]

theorem addCarry_eq (a b : UInt64) (carry : Bool) :
    (addCarry a b carry).1.toNat + UInt64.size * (addCarry a b carry).2.toNat =
      a.toNat + b.toNat + carry.toNat := by
  have ha := a.toNat_lt
  have hb := b.toNat_lt
  have hcarry := carry.toNat_le
  simp only [addCarry, toNat_or, UInt64.lt_iff_toNat_lt, UInt64.toNat_add, toNat_toUInt64, UInt64.size]
  split <;> omega

theorem subBorrow_eq (a b : UInt64) (borrow : Bool) :
    (subBorrow a b borrow).1.toNat + b.toNat + borrow.toNat =
      a.toNat + UInt64.size * (subBorrow a b borrow).2.toNat := by
  have ha := a.toNat_lt
  have hb := b.toNat_lt
  have hborrow := borrow.toNat_le
  simp only [subBorrow, toNat_or, UInt64.lt_iff_toNat_lt, UInt64.toNat_sub, toNat_toUInt64, UInt64.size]
  split <;> omega

/-- The four limbs of a sum, with the carry out of the last one. -/
theorem add?_eq (a b : Word) : ∃ (sum : Word) (carry : Bool),
    a.add? b = (if carry then none else some sum) ∧
      sum.toNat + 2 ^ 256 * carry.toNat = a.toNat + b.toNat := by
  rw [← value_limbs a, ← value_limbs b]
  simp only [add?, Limbs.value]
  generalize a.limbs = x
  generalize b.limbs = y
  have h0 := addCarry_eq x.l0 y.l0 false
  generalize addCarry x.l0 y.l0 false = r0 at h0 ⊢
  have h1 := addCarry_eq x.l1 y.l1 r0.2
  generalize addCarry x.l1 y.l1 r0.2 = r1 at h1 ⊢
  have h2 := addCarry_eq x.l2 y.l2 r1.2
  generalize addCarry x.l2 y.l2 r1.2 = r2 at h2 ⊢
  have h3 := addCarry_eq x.l3 y.l3 r2.2
  generalize addCarry x.l3 y.l3 r2.2 = r3 at h3 ⊢
  refine ⟨ofLimbs ⟨r0.1, r1.1, r2.1, r3.1⟩, r3.2, rfl, ?_⟩
  simp only [toNat_ofLimbs, Limbs.value, UInt64.size, Bool.toNat_false] at h0 h1 h2 h3 ⊢
  omega

/-- The four limbs of a difference, with the borrow into the last one. -/
theorem sub?_eq (a b : Word) : ∃ (difference : Word) (borrow : Bool),
    a.sub? b = (if borrow then none else some difference) ∧
      difference.toNat + b.toNat = a.toNat + 2 ^ 256 * borrow.toNat := by
  rw [← value_limbs a, ← value_limbs b]
  simp only [sub?, Limbs.value]
  generalize a.limbs = x
  generalize b.limbs = y
  have h0 := subBorrow_eq x.l0 y.l0 false
  generalize subBorrow x.l0 y.l0 false = r0 at h0 ⊢
  have h1 := subBorrow_eq x.l1 y.l1 r0.2
  generalize subBorrow x.l1 y.l1 r0.2 = r1 at h1 ⊢
  have h2 := subBorrow_eq x.l2 y.l2 r1.2
  generalize subBorrow x.l2 y.l2 r1.2 = r2 at h2 ⊢
  have h3 := subBorrow_eq x.l3 y.l3 r2.2
  generalize subBorrow x.l3 y.l3 r2.2 = r3 at h3 ⊢
  refine ⟨ofLimbs ⟨r0.1, r1.1, r2.1, r3.1⟩, r3.2, rfl, ?_⟩
  simp only [toNat_ofLimbs, Limbs.value, UInt64.size, Bool.toNat_false] at h0 h1 h2 h3 ⊢
  omega

theorem add?_eq_some {a b c : Word} : a.add? b = some c ↔ c.toNat = a.toNat + b.toNat := by
  obtain ⟨sum, carry, hadd, hvalue⟩ := add?_eq a b
  rw [hadd]
  cases carry with
  | false =>
      simp only [Bool.toNat_false, Nat.mul_zero, Nat.add_zero] at hvalue
      rw [← hvalue]
      constructor
      · intro h
        cases h
        rfl
      · intro h
        rw [FixedBytes.toNat_injective h]
        rfl
  | true =>
      have hc := toNat_lt c
      simp only [Bool.toNat_true] at hvalue
      refine iff_of_false nofun ?_
      omega

theorem sub?_eq_some {a b c : Word} : a.sub? b = some c ↔ c.toNat + b.toNat = a.toNat := by
  obtain ⟨difference, borrow, hsub, hvalue⟩ := sub?_eq a b
  rw [hsub]
  cases borrow with
  | false =>
      simp only [Bool.toNat_false, Nat.mul_zero, Nat.add_zero] at hvalue
      rw [← hvalue]
      constructor
      · intro h
        cases h
        rfl
      · intro h
        rw [FixedBytes.toNat_injective (Nat.add_right_cancel h)]
        rfl
  | true =>
      have hd := toNat_lt difference
      simp only [Bool.toNat_true] at hvalue
      refine iff_of_false nofun ?_
      omega

end Word

end CallScript
