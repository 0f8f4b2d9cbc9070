import CallScript.Contract.Computing
import CallScript.Proofs.Abi.RoundTrip
import CallScript.Proofs.Word

/-!
# Words are numbers

Sums, differences and products of words are those of their values, and the order of words is the order of
their values. The product is also computed a second time, in eight limbs that are written over in place and
with numbers of 128 bits, and nothing leaves those bits.
-/

namespace CallScript

/-! ## Order -/

namespace Bytes

theorem toNat_cons (b : UInt8) (rest : Bytes) :
    toNat (b :: rest) = 256 ^ rest.length * b.toNat + toNat rest := by
  have hb : toNat [b] = b.toNat := by simp [toNat, toNatLE]
  rw [← List.singleton_append, toNat_append, hb]

theorem lt_iff_toNat_lt {a b : Bytes} (h : a.length = b.length) : a < b ↔ a.toNat < b.toNat := by
  induction a generalizing b with
  | nil =>
      cases b with
      | nil => simp
      | cons y ys => cases h
  | cons x xs ih =>
      cases b with
      | nil => cases h
      | cons y ys =>
          have hlength : xs.length = ys.length := Nat.succ.inj h
          have hxs := toNat_lt xs
          have hys := toNat_lt ys
          rw [List.cons_lt_cons_iff, ih hlength, toNat_cons, toNat_cons, ← hlength, UInt8.lt_iff_toNat_lt,
            ← UInt8.toNat_inj]
          rw [← hlength] at hys
          -- The rest of a numeral never makes up for its first byte.
          rcases Nat.lt_trichotomy x.toNat y.toNat with hlt | heq | hgt
          · have hle := Nat.mul_le_mul_left (256 ^ xs.length) (Nat.succ_le_of_lt hlt)
            rw [Nat.mul_succ] at hle
            omega
          · rw [heq]
            omega
          · have hle := Nat.mul_le_mul_left (256 ^ xs.length) (Nat.succ_le_of_lt hgt)
            rw [Nat.mul_succ] at hle
            omega

end Bytes

namespace FixedBytes

variable {n : Nat} (a b : FixedBytes n)

theorem lt_iff_toNat_lt : a < b ↔ a.toNat < b.toNat :=
  Bytes.lt_iff_toNat_lt (a.length_eq.trans b.length_eq.symm)

theorem compare_eq : a.compare b = Ord.compare a.toNat b.toNat := by
  have heq : a = b ↔ a.toNat = b.toNat := ⟨congrArg toNat, toNat_injective⟩
  simp only [compare, lt_iff_toNat_lt, heq]
  rfl

end FixedBytes

namespace Word

/-! ## Products -/

theorem mulStep_lt (acc a b carry : UInt64) : mulStep acc a b carry < 2 ^ 128 := by
  have hacc := acc.toNat_lt
  have ha := a.toNat_lt
  have hb := b.toNat_lt
  have hcarry := carry.toNat_lt
  have hproduct : a.toNat * b.toNat ≤ (2 ^ 64 - 1) * (2 ^ 64 - 1) :=
    Nat.mul_le_mul (by omega) (by omega)
  rw [mulStep]
  omega

theorem toNat_carry {t : Nat} (h : t < 2 ^ 128) :
    (UInt64.ofNat (t / UInt64.size)).toNat = t / UInt64.size := by
  refine UInt64.toNat_ofNat_of_lt' ?_
  simp only [UInt64.size]
  omega

theorem split_limb {t : Nat} (h : t < 2 ^ 128) :
    (UInt64.ofNat t).toNat + UInt64.size * (UInt64.ofNat (t / UInt64.size)).toNat = t := by
  rw [toNat_carry h, UInt64.toNat_ofNat']
  exact Nat.mod_add_div t UInt64.size

theorem mulRow_eq (acc : Limbs) (a : UInt64) (y : Limbs) :
    (mulRow acc a y).1.value + 2 ^ 256 * (mulRow acc a y).2.toNat = acc.value + a.toNat * y.value := by
  simp only [mulRow]
  have h0 := split_limb (mulStep_lt acc.l0 a y.l0 0)
  generalize UInt64.ofNat (mulStep acc.l0 a y.l0 0 / UInt64.size) = c0 at h0 ⊢
  have h1 := split_limb (mulStep_lt acc.l1 a y.l1 c0)
  generalize UInt64.ofNat (mulStep acc.l1 a y.l1 c0 / UInt64.size) = c1 at h1 ⊢
  have h2 := split_limb (mulStep_lt acc.l2 a y.l2 c1)
  generalize UInt64.ofNat (mulStep acc.l2 a y.l2 c1 / UInt64.size) = c2 at h2 ⊢
  have h3 := split_limb (mulStep_lt acc.l3 a y.l3 c2)
  simp only [Limbs.value, mulStep, UInt64.toNat_zero, Nat.mul_add, Nat.mul_left_comm a.toNat UInt64.size]
    at h0 h1 h2 h3 ⊢
  simp only [UInt64.size] at h0 h1 h2 h3 ⊢
  omega

/-- The four lower limbs of a product, and the number in those above them. -/
theorem mul?_eq (a b : Word) : ∃ (low : Word) (high : Nat),
    a.mul? b = (if high = 0 then some low else none) ∧ low.toNat + 2 ^ 256 * high = a.toNat * b.toNat := by
  rw [← value_limbs a, ← value_limbs b]
  simp only [mul?]
  generalize a.limbs = x
  generalize b.limbs = y
  have h0 := mulRow_eq ⟨0, 0, 0, 0⟩ x.l0 y
  generalize mulRow ⟨0, 0, 0, 0⟩ x.l0 y = r0 at h0 ⊢
  have h1 := mulRow_eq ⟨r0.1.l1, r0.1.l2, r0.1.l3, r0.2⟩ x.l1 y
  generalize mulRow ⟨r0.1.l1, r0.1.l2, r0.1.l3, r0.2⟩ x.l1 y = r1 at h1 ⊢
  have h2 := mulRow_eq ⟨r1.1.l1, r1.1.l2, r1.1.l3, r1.2⟩ x.l2 y
  generalize mulRow ⟨r1.1.l1, r1.1.l2, r1.1.l3, r1.2⟩ x.l2 y = r2 at h2 ⊢
  have h3 := mulRow_eq ⟨r2.1.l1, r2.1.l2, r2.1.l3, r2.2⟩ x.l3 y
  generalize mulRow ⟨r2.1.l1, r2.1.l2, r2.1.l3, r2.2⟩ x.l3 y = r3 at h3 ⊢
  refine ⟨ofLimbs ⟨r0.1.l0, r1.1.l0, r2.1.l0, r3.1.l0⟩,
    Limbs.value ⟨r3.1.l1, r3.1.l2, r3.1.l3, r3.2⟩, ?_, ?_⟩
  · refine if_congr ?_ rfl rfl
    simp only [Limbs.value, ← UInt64.toNat_inj, UInt64.toNat_zero, UInt64.size]
    omega
  · have hproduct : x.value * y.value = x.l0.toNat * y.value + UInt64.size * (x.l1.toNat * y.value +
        UInt64.size * (x.l2.toNat * y.value + UInt64.size * (x.l3.toNat * y.value))) := by
      simp only [Limbs.value]
      ring
    rw [hproduct, toNat_ofLimbs]
    generalize y.value = v at h0 h1 h2 h3 ⊢
    simp only [Limbs.value, UInt64.size, UInt64.toNat_zero] at h0 h1 h2 h3 ⊢
    omega

theorem mul?_eq_some {a b c : Word} : a.mul? b = some c ↔ c.toNat = a.toNat * b.toNat := by
  obtain ⟨low, high, hmul, hvalue⟩ := mul?_eq a b
  have hlow := toNat_lt low
  have hc := toNat_lt c
  rw [hmul, ← hvalue]
  by_cases hhigh : high = 0
  · rw [if_pos hhigh, hhigh, Option.some.injEq]
    refine ⟨fun h => h ▸ rfl, fun h => (FixedBytes.toNat_injective h).symm⟩
  · rw [if_neg hhigh]
    refine iff_of_false nofun ?_
    omega

/-! ## Products in place -/

namespace InPlace

/-- The number, unless it takes more than 128 bits. -/
def fits (n : Nat) : Option Nat :=
  if n < 2 ^ 128 then some n else none

def mulStep (acc a b : UInt64) (carry : Nat) : Option Nat := do
  let product ← fits (a.toNat * b.toNat)
  let sum ← fits (acc.toNat + product)
  fits (sum + carry)

/-- Adds `a` times some limbs to the limbs of `wide`, and writes the last carry over the limb above. -/
def mulRow (a : UInt64) (carry : Nat) : (limbs wide : List UInt64) → Option (List UInt64)
  | [], _ :: above => some (UInt64.ofNat carry :: above)
  | limb :: limbs, acc :: wide => do
    let current ← mulStep acc a limb carry
    let rest ← mulRow a (current / 2 ^ 64) limbs wide
    return UInt64.ofNat current :: rest
  | _, [] => none

/-- One row for each limb of a factor, each one limb above the last. -/
def mulRows (limbs : List UInt64) : (factor wide : List UInt64) → Option (List UInt64)
  | [], wide => some wide
  | a :: factor, wide => do
    match ← mulRow a 0 limbs wide with
    | [] => none
    | low :: above => return low :: (← mulRows limbs factor above)

/-- The product, unless a number leaves its 128 bits or a limb is missing on the way. -/
def mul? (a b : Word) : Option (Option Word) := do
  let x := a.limbs
  let y := b.limbs
  match ← mulRows [y.l0, y.l1, y.l2, y.l3] [x.l0, x.l1, x.l2, x.l3] (List.replicate 8 0) with
  | w0 :: w1 :: w2 :: w3 :: above =>
    return if above.any (· ≠ 0) then none else some (ofLimbs ⟨w0, w1, w2, w3⟩)
  | _ => none

theorem fits_eq {n : Nat} (h : n < 2 ^ 128) : fits n = some n := if_pos h

theorem mulStep_eq (acc a b carry : UInt64) :
    mulStep acc a b carry.toNat = some (Word.mulStep acc a b carry) := by
  have hlt := mulStep_lt acc a b carry
  rw [Word.mulStep] at hlt ⊢
  have hproduct : fits (a.toNat * b.toNat) = some (a.toNat * b.toNat) := fits_eq (by omega)
  have hsum : fits (acc.toNat + a.toNat * b.toNat) = some (acc.toNat + a.toNat * b.toNat) :=
    fits_eq (by omega)
  simp only [mulStep, hproduct, hsum, fits_eq hlt, Option.bind_eq_bind, Option.bind_some]

theorem mulRow_cons (a carry limb acc : UInt64) (limbs wide : List UInt64) :
    mulRow a carry.toNat (limb :: limbs) (acc :: wide) =
      (mulRow a (UInt64.ofNat (Word.mulStep acc a limb carry / UInt64.size)).toNat limbs wide).map
        (UInt64.ofNat (Word.mulStep acc a limb carry) :: ·) := by
  rw [mulRow, mulStep_eq, toNat_carry (mulStep_lt ..)]
  exact (Option.map_eq_bind ..).symm

/-- A row in place is a row whose uppermost limb comes from its carry alone. -/
theorem mulRow_eq (acc : Limbs) (a : UInt64) (y : Limbs) (next : UInt64) (above : List UInt64) :
    mulRow a 0 [y.l0, y.l1, y.l2, y.l3] (acc.l0 :: acc.l1 :: acc.l2 :: acc.l3 :: next :: above) =
      some ((Word.mulRow acc a y).1.l0 :: (Word.mulRow acc a y).1.l1 :: (Word.mulRow acc a y).1.l2 ::
        (Word.mulRow acc a y).1.l3 :: (Word.mulRow acc a y).2 :: above) := by
  have hzero : 0 = (0 : UInt64).toNat := rfl
  rw [hzero, mulRow_cons, mulRow_cons, mulRow_cons, mulRow_cons, mulRow, UInt64.ofNat_toNat]
  rfl

theorem mulRows_cons (acc : Limbs) (a : UInt64) (y : Limbs) (next : UInt64) (factor above : List UInt64) :
    mulRows [y.l0, y.l1, y.l2, y.l3] (a :: factor)
        (acc.l0 :: acc.l1 :: acc.l2 :: acc.l3 :: next :: above) =
      (mulRows [y.l0, y.l1, y.l2, y.l3] factor ((Word.mulRow acc a y).1.l1 :: (Word.mulRow acc a y).1.l2 ::
        (Word.mulRow acc a y).1.l3 :: (Word.mulRow acc a y).2 :: above)).map
          ((Word.mulRow acc a y).1.l0 :: ·) := by
  rw [mulRows, mulRow_eq]
  exact (Option.map_eq_bind ..).symm

theorem mul?_eq (a b : Word) : mul? a b = some (a.mul? b) := by
  simp only [mul?, Word.mul?]
  generalize a.limbs = x
  generalize b.limbs = y
  have hwide : List.replicate 8 (0 : UInt64) = [0, 0, 0, 0, 0, 0, 0, 0] := rfl
  have h0 := mulRows_cons ⟨0, 0, 0, 0⟩ x.l0 y 0 [x.l1, x.l2, x.l3] [0, 0, 0]
  generalize Word.mulRow ⟨0, 0, 0, 0⟩ x.l0 y = r0 at h0 ⊢
  have h1 := mulRows_cons ⟨r0.1.l1, r0.1.l2, r0.1.l3, r0.2⟩ x.l1 y 0 [x.l2, x.l3] [0, 0]
  generalize Word.mulRow ⟨r0.1.l1, r0.1.l2, r0.1.l3, r0.2⟩ x.l1 y = r1 at h1 ⊢
  have h2 := mulRows_cons ⟨r1.1.l1, r1.1.l2, r1.1.l3, r1.2⟩ x.l2 y 0 [x.l3] [0]
  generalize Word.mulRow ⟨r1.1.l1, r1.1.l2, r1.1.l3, r1.2⟩ x.l2 y = r2 at h2 ⊢
  have h3 := mulRows_cons ⟨r2.1.l1, r2.1.l2, r2.1.l3, r2.2⟩ x.l3 y 0 [] []
  generalize Word.mulRow ⟨r2.1.l1, r2.1.l2, r2.1.l3, r2.2⟩ x.l3 y = r3 at h3 ⊢
  have hrows : mulRows [y.l0, y.l1, y.l2, y.l3] [x.l0, x.l1, x.l2, x.l3] (List.replicate 8 0) =
      some [r0.1.l0, r1.1.l0, r2.1.l0, r3.1.l0, r3.1.l1, r3.1.l2, r3.1.l3, r3.2] := by
    simp only at h0 h1 h2 h3
    rw [hwide, h0, h1, h2, h3, mulRows]
    rfl
  have hhigh : [r3.1.l1, r3.1.l2, r3.1.l3, r3.2].any (· ≠ 0) = true ↔
      ¬ (r3.1.l1 = 0 ∧ r3.1.l2 = 0 ∧ r3.1.l3 = 0 ∧ r3.2 = 0) := by
    simp only [List.any_cons, List.any_nil, Bool.or_false, Bool.or_eq_true, decide_eq_true_eq]
    tauto
  simp only [hrows, hhigh, ite_not, Option.bind_eq_bind, Option.bind_some, Option.pure_def]

end InPlace

/-! ## All of arithmetic -/

theorem eq_ite_of_eq_some {result : Option Word} {n : Nat} (h : ∀ c, result = some c ↔ c.toNat = n) :
    result = if n < 2 ^ 256 then some (ofNat n) else none := by
  by_cases hn : n < 2 ^ 256
  · rw [if_pos hn]
    exact (h (ofNat n)).mpr (toNat_ofNat hn)
  · rw [if_neg hn, Option.eq_none_iff_forall_ne_some]
    intro c hc
    have hlt := toNat_lt c
    rw [(h c).mp hc] at hlt
    exact hn hlt

theorem add?_eq_ite (a b : Word) :
    a.add? b = if a.toNat + b.toNat < 2 ^ 256 then some (ofNat (a.toNat + b.toNat)) else none :=
  eq_ite_of_eq_some fun _ => add?_eq_some

theorem mul?_eq_ite (a b : Word) :
    a.mul? b = if a.toNat * b.toNat < 2 ^ 256 then some (ofNat (a.toNat * b.toNat)) else none :=
  eq_ite_of_eq_some fun _ => mul?_eq_some

theorem sub?_eq_ite (a b : Word) :
    a.sub? b = if b.toNat ≤ a.toNat then some (ofNat (a.toNat - b.toNat)) else none := by
  have ha := toNat_lt a
  by_cases hle : b.toNat ≤ a.toNat
  · have hvalue : (ofNat (a.toNat - b.toNat)).toNat = a.toNat - b.toNat := toNat_ofNat (by omega)
    rw [if_pos hle, sub?_eq_some, hvalue]
    omega
  · rw [if_neg hle, Option.eq_none_iff_forall_ne_some]
    intro c hc
    have hvalue := sub?_eq_some.mp hc
    omega

/-- Adding word by word refuses a total, and no other, that takes more than 256 bits. -/
theorem foldlM_add?_eq_ite (items : List Word) (start : Word) :
    items.foldlM add? start =
      if start.toNat + (items.map FixedBytes.toNat).sum < 2 ^ 256 then
        some (ofNat (start.toNat + (items.map FixedBytes.toNat).sum))
      else none := by
  induction items generalizing start with
  | nil =>
      rw [List.map_nil, List.sum_nil, Nat.add_zero, if_pos (toNat_lt start), ofNat_toNat]
      rfl
  | cons item items ih =>
      simp only [List.foldlM_cons, add?_eq_ite, List.map_cons, List.sum_cons, ← Nat.add_assoc,
        Option.bind_eq_bind]
      by_cases hfirst : start.toNat + item.toNat < 2 ^ 256
      · rw [if_pos hfirst, Option.bind_some, ih, toNat_ofNat hfirst]
      · rw [if_neg hfirst, if_neg (by omega), Option.bind_none]

theorem foldlM_add?_zero (items : List Word) :
    items.foldlM add? zero =
      if (items.map FixedBytes.toNat).sum < 2 ^ 256 then some (ofNat (items.map FixedBytes.toNat).sum)
      else none := by
  rw [foldlM_add?_eq_ite, toNat_zero, Nat.zero_add]

end Word

namespace Contract.Math

open Word

theorem sum_encode {items : List Word} (hfits : Abi.Addressable [.words items]) (frame : Frame) :
    sum frame (Abi.encode [.words items]) =
      if (items.map FixedBytes.toNat).sum < 2 ^ 256 then
        .done (Word.ofNat (items.map FixedBytes.toNat).sum).bytes
      else .revert (.reason "arithmetic overflow") := by
  have hread : Abi.wordsAt (Abi.encode [.words items]) 0 = .ok items := Abi.wordsAt_encode rfl hfits
  have hargs : Calldata.words (Abi.encode [.words items]) 0 = .ok items := by
    rw [Calldata.words, hread]
    rfl
  rw [sum, hargs]
  change (Action.orRevert (items.foldlM add? zero) "arithmetic overflow" >>= fun total =>
    pure total.bytes) = _
  rw [foldlM_add?_zero]
  by_cases hlt : (items.map FixedBytes.toNat).sum < 2 ^ 256
  · rw [if_pos hlt, if_pos hlt]
    rfl
  · rw [if_neg hlt, if_neg hlt]
    rfl

theorem route_sum (frame : Frame) (args : Bytes) :
    code.route frame ((Selector.ofSignature "sum(uint256[])").bytes ++ args) = sum frame args := by
  have hfunctions : code.functions = [⟨"add(uint256,uint256)", binary add?⟩,
      ⟨"sub(uint256,uint256)", binary sub?⟩, ⟨"mul(uint256,uint256)", binary mul?⟩] ++
        ⟨"sum(uint256[])", sum⟩ :: [] := rfl
  have hselectors : ∀ signature ∈ ["add(uint256,uint256)", "sub(uint256,uint256)", "mul(uint256,uint256)"],
      Selector.ofSignature signature ≠ Selector.ofSignature "sum(uint256[])" := by decide +kernel
  refine Code.route_of_selector _ _ hfunctions ?_ frame args
  intro other hother
  exact hselectors other.signature (List.mem_map_of_mem hother)

end Contract.Math

/-- Arithmetic on words is exact. A sum, a difference or a product is that of the values where a word can
hold it, and is refused where not; no number of 128 bits overflows in a product; words are ordered by their
values. So the total of any array of words is exact, in whatever order they stand. -/
theorem Word.arithmetic_exact (a b : Word) :
    a.add? b = (if a.toNat + b.toNat < 2 ^ 256 then some (ofNat (a.toNat + b.toNat)) else none) ∧
    a.sub? b = (if b.toNat ≤ a.toNat then some (ofNat (a.toNat - b.toNat)) else none) ∧
    a.mul? b = (if a.toNat * b.toNat < 2 ^ 256 then some (ofNat (a.toNat * b.toNat)) else none) ∧
    InPlace.mul? a b = some (a.mul? b) ∧
    (a < b ↔ a.toNat < b.toNat) ∧ a.compare b = Ord.compare a.toNat b.toNat ∧
    ∀ items : List Word,
      let args := Abi.encode [.words items]
      let total := (items.map FixedBytes.toNat).sum
      let answer : Action Bytes := if total < 2 ^ 256 then .done (ofNat total).bytes
        else .revert (.reason "arithmetic overflow")
      items.foldlM add? zero = (if total < 2 ^ 256 then some (ofNat total) else none) ∧
      (args.length < 2 ^ 64 → ∀ frame : Frame,
        Contract.Math.code.invoke frame "sum(uint256[])" args = answer ∧
        Contract.Math.code.route frame ((Selector.ofSignature "sum(uint256[])").bytes ++ args) = answer) := by
  refine ⟨add?_eq_ite a b, sub?_eq_ite a b, mul?_eq_ite a b, InPlace.mul?_eq a b,
    FixedBytes.lt_iff_toNat_lt a b, FixedBytes.compare_eq a b, ?_⟩
  intro items args total answer
  refine ⟨foldlM_add?_zero items, ?_⟩
  intro hfits frame
  have hsum : Contract.Math.sum frame args = answer := Contract.Math.sum_encode hfits frame
  have hinvoke : Contract.Math.code.invoke frame "sum(uint256[])" args = Contract.Math.sum frame args := rfl
  exact ⟨hinvoke.trans hsum, (Contract.Math.route_sum frame args).trans hsum⟩

/-- The largest total there is, and one more. -/
theorem Word.arithmetic_exact_total :
    let items := [ofNat (2 ^ 255), ofNat (2 ^ 255 - 1)]
    let frame := Frame.root default default .zero
    (Abi.encode [.words items]).length < 2 ^ 64 ∧ (Abi.encode [.words (ofNat 1 :: items)]).length < 2 ^ 64 ∧
      Contract.Math.code.invoke frame "sum(uint256[])" (Abi.encode [.words items]) =
        .done (ofNat (2 ^ 256 - 1)).bytes ∧
      Contract.Math.code.invoke frame "sum(uint256[])" (Abi.encode [.words (ofNat 1 :: items)]) =
        .revert (.reason "arithmetic overflow") := by
  intro items frame
  have hfits : (Abi.encode [.words items]).length < 2 ^ 64 := by decide +kernel
  have hover : (Abi.encode [.words (ofNat 1 :: items)]).length < 2 ^ 64 := by decide +kernel
  have htotal : (items.map FixedBytes.toNat).sum = 2 ^ 256 - 1 := by decide +kernel
  have hmore : ((ofNat 1 :: items).map FixedBytes.toNat).sum = 2 ^ 256 := by decide +kernel
  obtain ⟨-, -, -, -, -, -, hsum⟩ := arithmetic_exact zero zero
  refine ⟨hfits, hover, ?_, ?_⟩
  · rw [((hsum items).2 hfits frame).1, htotal]
    exact if_pos (by decide)
  · rw [((hsum (ofNat 1 :: items)).2 hover frame).1, hmore]
    exact if_neg (by decide)

end CallScript
