import CallScript.Word.Basic

/-!
# Checked arithmetic on words

Sums, differences and products of words are computed on four limbs of 64 bits and are refused when
they leave the range of a word.
-/

namespace CallScript.Word

/-- Four limbs of 64 bits, least significant first. -/
structure Limbs where
  l0 : UInt64
  l1 : UInt64
  l2 : UInt64
  l3 : UInt64

/-- The limb that ends `8 * i` bytes before the end of a word. -/
def limb (w : Word) (i : Nat) : UInt64 :=
  UInt64.ofNat (Bytes.toNat ((w.bytes.drop (24 - 8 * i)).take 8))

def limbs (w : Word) : Limbs :=
  ⟨w.limb 0, w.limb 1, w.limb 2, w.limb 3⟩

def ofLimbs (x : Limbs) : Word where
  bytes := [x.l3, x.l2, x.l1, x.l0].flatMap fun limb => Bytes.ofNat 8 limb.toNat
  length_eq := by simp

/-- One limb of a sum, and whether the next limb takes a carry. -/
def addCarry (a b : UInt64) (carry : Bool) : UInt64 × Bool :=
  let sum := a + b
  let total := sum + carry.toUInt64
  (total, decide (sum < a) || decide (total < sum))

/-- One limb of a difference, and whether the next limb lends. -/
def subBorrow (a b : UInt64) (borrow : Bool) : UInt64 × Bool :=
  let difference := a - b
  (difference - borrow.toUInt64, decide (a < b) || decide (difference < borrow.toUInt64))

/-- The sum, unless it takes more than 256 bits. -/
def add? (a b : Word) : Option Word :=
  let x := a.limbs
  let y := b.limbs
  let (s0, c0) := addCarry x.l0 y.l0 false
  let (s1, c1) := addCarry x.l1 y.l1 c0
  let (s2, c2) := addCarry x.l2 y.l2 c1
  let (s3, c3) := addCarry x.l3 y.l3 c2
  if c3 then none else some (ofLimbs ⟨s0, s1, s2, s3⟩)

/-- The difference, unless it is negative. -/
def sub? (a b : Word) : Option Word :=
  let x := a.limbs
  let y := b.limbs
  let (d0, b0) := subBorrow x.l0 y.l0 false
  let (d1, b1) := subBorrow x.l1 y.l1 b0
  let (d2, b2) := subBorrow x.l2 y.l2 b1
  let (d3, b3) := subBorrow x.l3 y.l3 b2
  if b3 then none else some (ofLimbs ⟨d0, d1, d2, d3⟩)

/-- The double-width term of one step of a product: below `2 ^ 128` for all limbs. -/
def mulStep (acc a b carry : UInt64) : Nat :=
  acc.toNat + a.toNat * b.toNat + carry.toNat

/-- Adds `a` times the limbs `y` to the limbs `acc`; the last component is the limb above them. -/
def mulRow (acc : Limbs) (a : UInt64) (y : Limbs) : Limbs × UInt64 :=
  let t0 := mulStep acc.l0 a y.l0 0
  let t1 := mulStep acc.l1 a y.l1 (UInt64.ofNat (t0 / UInt64.size))
  let t2 := mulStep acc.l2 a y.l2 (UInt64.ofNat (t1 / UInt64.size))
  let t3 := mulStep acc.l3 a y.l3 (UInt64.ofNat (t2 / UInt64.size))
  (⟨UInt64.ofNat t0, UInt64.ofNat t1, UInt64.ofNat t2, UInt64.ofNat t3⟩, UInt64.ofNat (t3 / UInt64.size))

/-- The product, unless it takes more than 256 bits: four rows, each one limb above the last. -/
def mul? (a b : Word) : Option Word :=
  let x := a.limbs
  let y := b.limbs
  let (r0, h0) := mulRow ⟨0, 0, 0, 0⟩ x.l0 y
  let (r1, h1) := mulRow ⟨r0.l1, r0.l2, r0.l3, h0⟩ x.l1 y
  let (r2, h2) := mulRow ⟨r1.l1, r1.l2, r1.l3, h1⟩ x.l2 y
  let (r3, h3) := mulRow ⟨r2.l1, r2.l2, r2.l3, h2⟩ x.l3 y
  if r3.l1 = 0 ∧ r3.l2 = 0 ∧ r3.l3 = 0 ∧ h3 = 0 then some (ofLimbs ⟨r0.l0, r1.l0, r2.l0, r3.l0⟩)
  else none

end CallScript.Word
