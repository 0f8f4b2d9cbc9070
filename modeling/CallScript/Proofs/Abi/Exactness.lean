import CallScript.Proofs.Abi.RoundTrip

/-!
# Readers are safe and exact

A buffer may claim any positions, lengths and counts. Two readers stand beside the one that is used. One
takes all numbers as they are and asks only whether the regions it needs lie in the buffer. The other takes
every step of the reader that is not checked and traps if the step goes wrong. The first agrees with the
reader on what can be read and what is read, and the second never traps.
-/

namespace CallScript.Abi

/-! ## Numbers without bound -/

namespace Unbounded

/-- The `length` bytes from position `start` on, if they all exist. -/
def region (data : Bytes) (start length : Nat) : Option Bytes :=
  if start + length ≤ data.length then some ((data.drop start).take length) else none

def word (data : Bytes) (start : Nat) : Option Word := do
  let bytes ← region data start 32
  Word.ofBytes? bytes

def number (data : Bytes) (start : Nat) : Option Nat := do
  let w ← word data start
  return w.toNat

def content (data : Bytes) (start : Nat) : Option Bytes := do
  let length ← number data start
  region data (start + 32) length

def wordAt (data : Bytes) (index : Nat) : Option Word :=
  word data (index * 32)

def bytesAt (data : Bytes) (index : Nat) : Option Bytes := do
  let start ← number data (index * 32)
  content data start

/-- Element `i` of an array of byte strings, whose positions stand from `base` on and count from there. -/
def element (data : Bytes) (base i : Nat) : Option Bytes := do
  let relative ← number data (base + i * 32)
  content data (base + relative)

def bytesArrayAt (data : Bytes) (index : Nat) : Option (List Bytes) := do
  let start ← number data (index * 32)
  let count ← number data start
  -- The positions of all elements have to be there, however many the count claims.
  let _ ← region data (start + 32) (count * 32)
  (List.range' 0 count).mapM (element data (start + 32))

def wordsAt (data : Bytes) (index : Nat) : Option (List Word) := do
  let start ← number data (index * 32)
  let count ← number data start
  let _ ← region data (start + 32) (count * 32)
  (List.range' 0 count).mapM fun i => word data (start + 32 + i * 32)

def tailOf (data : Bytes) : Option Bytes := do
  let start ← number data 0
  let _ ← region data start 32
  return data.drop start

variable {data : Bytes} {start length : Nat}

theorem region_eq_none (h : data.length < start + length) : region data start length = none :=
  if_neg (Nat.not_le.mpr h)

theorem number_eq_none (h : data.length < start + 32) : number data start = none := by
  simp [number, word, region_eq_none h]

theorem content_eq_none (h : data.length < start + 32) : content data start = none := by
  simp [content, number_eq_none h]

/-- A region of a region is a region of the buffer. -/
theorem region_of_region {table : Bytes} {base size : Nat} (h : region data base size = some table)
    (hinside : start + length ≤ size) : region table start length = region data (base + start) length := by
  unfold region at h
  split at h
  · next hbuffer =>
    cases h
    have htable : ((data.drop base).take size).length = size := by simp; omega
    rw [region, region, htable, if_pos hinside, if_pos (by omega), List.drop_take, List.take_take,
      List.drop_drop, Nat.min_eq_left (by omega)]
  · cases h

theorem word_of_region {table : Bytes} {base size : Nat} (h : region data base size = some table)
    (hinside : start + 32 ≤ size) : word table start = word data (base + start) := by
  rw [word, word, region_of_region h hinside]

theorem le_of_region {bytes : Bytes} (h : region data start length = some bytes) :
    bytes.length = length ∧ start + length ≤ data.length := by
  unfold region at h
  split at h
  · next hbuffer =>
    cases h
    exact ⟨by simp; omega, hbuffer⟩
  · cases h

theorem le_of_word {w : Word} (h : word data start = some w) : start + 32 ≤ data.length := by
  obtain ⟨bytes, hbytes, -⟩ := Option.bind_eq_some_iff.mp h
  exact (le_of_region hbytes).2

end Unbounded

/-! ## Numbers of 64 bits -/

/-- The number, unless it takes more than 64 bits. -/
def narrow (n : Nat) : Option UInt64 :=
  if n < UInt64.size then some (UInt64.ofNat n) else none

theorem checkedAdd_eq_narrow (a b : UInt64) : checkedAdd a b = narrow (a.toNat + b.toNat) := by
  unfold checkedAdd narrow
  split
  · next hfits => rw [← toNat_add_of_lt hfits, UInt64.ofNat_toNat]
  · rfl

theorem checkedMul_eq_narrow (a b : UInt64) : checkedMul a b = narrow (a.toNat * b.toNat) := by
  unfold checkedMul narrow
  split
  · next hfits => rw [← toNat_mul_of_lt hfits, UInt64.ofNat_toNat]
  · rfl

theorem toUInt64?_eq_narrow (w : Word) : w.toUInt64? = narrow w.toNat := by
  have hbits : 1 <<< 64 = UInt64.size := rfl
  unfold Word.toUInt64? Word.toNat? narrow
  rw [hbits]
  split <;> rfl

theorem toOption_bind {ε α β : Type} (x : Except ε α) (next : α → Except ε β) :
    (x >>= next).toOption = x.toOption >>= fun a => (next a).toOption := by
  cases x <;> rfl

section Exact

variable {β : Type} {shape : Shape} {data : Bytes} {start : UInt64} {next : UInt64 → Except Mismatch β}
  {plain : Nat → Option β}

/-- A number may be refused for its size if it would be of no use either. -/
theorem toOption_narrow_bind (plain : Nat → Option β) {n : Nat} (hnext : ∀ x, (next x).toOption = plain x.toNat)
    (hlarge : ∀ n, UInt64.size ≤ n → plain n = none) :
    (representable shape data (narrow n) >>= next).toOption = plain n := by
  unfold narrow
  split
  · next hfits =>
    rw [representable, Except.ok_bind, hnext, UInt64.toNat_ofNat_of_lt' hfits]
  · next hfits =>
    rw [hlarge n (Nat.not_lt.mp hfits)]
    rfl

theorem toOption_region (hdata : data.length < UInt64.size) (start length : UInt64) :
    (region shape data start length).toOption = Unbounded.region data start.toNat length.toNat := by
  rw [region, checkedAdd_eq_narrow]
  have hplain : Unbounded.region data start.toNat length.toNat =
      data.slice? start.toNat (start.toNat + length.toNat) := by
    simp [Bytes.slice?, Unbounded.region]
  rw [hplain]
  refine toOption_narrow_bind (data.slice? start.toNat) (fun stop => ?_) fun stop hstop => ?_
  · cases data.slice? start.toNat stop.toNat <;> rfl
  · exact if_neg (by omega)

theorem toOption_wordAtOffset (hdata : data.length < UInt64.size) (start : UInt64) :
    (wordAtOffset shape data start).toOption = Unbounded.word data start.toNat := by
  rw [wordAtOffset, toOption_bind, toOption_region hdata, Unbounded.word]
  congr 1
  funext bytes
  cases Word.ofBytes? bytes <;> rfl

theorem toOption_positionAt_bind (hdata : data.length < UInt64.size)
    (hnext : start.toNat + 32 ≤ data.length → ∀ n, (next n).toOption = plain n.toNat)
    (hlarge : ∀ n, UInt64.size ≤ n → plain n = none) :
    (positionAt shape data start >>= next).toOption = Unbounded.number data start.toNat >>= plain := by
  rw [positionAt, bind_assoc, toOption_bind, toOption_wordAtOffset hdata, Unbounded.number, bind_assoc]
  refine Option.bind_congr fun w hw => ?_
  -- That the number was read bounds its own place, which is what lets the next step add to it.
  rw [toUInt64?_eq_narrow]
  exact toOption_narrow_bind plain (hnext (Unbounded.le_of_word hw)) hlarge

theorem toNat_add_word (hdata : data.length < UInt64.size) (hstart : start.toNat + 32 ≤ data.length) :
    (start + 32).toNat = start.toNat + 32 :=
  toNat_add_of_lt (by simp; omega)

theorem toOption_bytesAtOffset (hdata : data.length < UInt64.size) (start : UInt64) :
    (bytesAtOffset shape data start).toOption = Unbounded.content data start.toNat := by
  refine toOption_positionAt_bind hdata (fun hstart length => ?_) fun n hn => ?_
  · rw [toOption_region hdata, toNat_add_word hdata hstart]
  · exact Unbounded.region_eq_none (by omega)

theorem toOption_elementsFrom {base : UInt64} {table : Bytes} {total : Nat}
    (hdata : data.length < UInt64.size)
    (htable : Unbounded.region data base.toNat (total * 32) = some table) (count : Nat) (i : UInt64)
    (hcount : i.toNat + count ≤ total) :
    (elementsFrom data base table count i).toOption =
      (List.range' i.toNat count).mapM (Unbounded.element data base.toNat) := by
  obtain ⟨hlength, hinside⟩ := Unbounded.le_of_region htable
  induction count generalizing i with
  | zero => rfl
  | succ count ih =>
      have hentry : (i * 32).toNat = i.toNat * 32 := toNat_mul_of_lt (by simp; omega)
      have hnext : (i + 1).toNat = i.toNat + 1 := toNat_add_of_lt (by simp; omega)
      -- The reader finds the position in the table of all positions, which is a region of the buffer.
      rw [List.range'_succ, List.mapM_cons, Unbounded.element, elementsFrom, bind_assoc,
        Unbounded.number, ← Unbounded.word_of_region htable (by omega), ← hentry]
      refine toOption_positionAt_bind (by omega) (fun _ relative => ?_) fun n hn => ?_
      · rw [checkedAdd_eq_narrow]
        refine toOption_narrow_bind (fun start => do
          let item ← Unbounded.content data start
          let items ← (List.range' (i.toNat + 1) count).mapM (Unbounded.element data base.toNat)
          return item :: items) (fun start => ?_) fun n hn => ?_
        · rw [toOption_bind, toOption_bytesAtOffset hdata]
          refine Option.bind_congr fun item _ => ?_
          rw [toOption_bind, ih (i + 1) (by omega), hnext]
          rfl
        · rw [Unbounded.content_eq_none (by omega)]
          rfl
      · rw [Unbounded.content_eq_none (by omega)]
        rfl

theorem toOption_wordAt (hdata : data.length < UInt64.size) {index : UInt64}
    (hindex : (index * 32).toNat = index.toNat * 32) :
    (wordAt data index).toOption = Unbounded.wordAt data index.toNat := by
  rw [wordAt, toOption_wordAtOffset hdata, hindex]
  rfl

theorem toOption_bytesAt (hdata : data.length < UInt64.size) {index : UInt64}
    (hindex : (index * 32).toNat = index.toNat * 32) :
    (bytesAt data index).toOption = Unbounded.bytesAt data index.toNat := by
  rw [bytesAt, Unbounded.bytesAt, ← hindex]
  refine toOption_positionAt_bind hdata (fun _ start => toOption_bytesAtOffset hdata start) fun n hn => ?_
  exact Unbounded.content_eq_none (by omega)

/-- An array is a count with that many words behind it, and what is made of those words. -/
theorem toOption_counted {γ : Type} {index : UInt64} {next : UInt64 → UInt64 → Bytes → Except Mismatch γ}
    {plain : Nat → Nat → Option γ} (hdata : data.length < UInt64.size)
    (hindex : (index * 32).toNat = index.toNat * 32)
    (hnext : ∀ start count : UInt64, (start + 32).toNat = start.toNat + 32 → ∀ table,
      Unbounded.region data (start.toNat + 32) (count.toNat * 32) = some table →
      (next start count table).toOption = plain start.toNat count.toNat) :
    (do
      let start ← positionAt shape data (index * 32)
      let count ← positionAt shape data start
      let size ← representable shape data (checkedMul count 32)
      let table ← region shape data (start + 32) size
      next start count table).toOption = (do
      let start ← Unbounded.number data (index.toNat * 32)
      let count ← Unbounded.number data start
      let _ ← Unbounded.region data (start + 32) (count * 32)
      plain start count) := by
  rw [← hindex]
  refine toOption_positionAt_bind hdata (fun _ start => ?_) fun n hn => ?_
  · refine toOption_positionAt_bind hdata (fun hstart count => ?_) fun n hn => ?_
    · have hbody := toNat_add_word hdata hstart
      have hregion : (representable shape data (checkedMul count 32) >>=
          region shape data (start + 32)).toOption =
            Unbounded.region data (start.toNat + 32) (count.toNat * 32) := by
        rw [checkedMul_eq_narrow]
        refine toOption_narrow_bind (Unbounded.region data (start.toNat + 32)) (fun size => ?_) fun n hn => ?_
        · rw [toOption_region hdata, hbody]
        · exact Unbounded.region_eq_none (by omega)
      rw [← bind_assoc, toOption_bind, hregion]
      exact Option.bind_congr (hnext start count hbody)
    · rw [Unbounded.region_eq_none (by omega)]
      rfl
  · rw [Unbounded.number_eq_none (by omega)]
    rfl

theorem toOption_bytesArrayAt (hdata : data.length < UInt64.size) {index : UInt64}
    (hindex : (index * 32).toNat = index.toNat * 32) :
    (bytesArrayAt data index).toOption = Unbounded.bytesArrayAt data index.toNat := by
  refine toOption_counted hdata hindex fun start count hbody table htable => ?_
  rw [← hbody] at htable ⊢
  exact toOption_elementsFrom hdata htable count.toNat 0 (by simp)

theorem mapM_word_eq_pieces {base total : Nat} {table : Bytes}
    (htable : Unbounded.region data base (total * 32) = some table) (count i : Nat)
    (hcount : i + count ≤ total) :
    (List.range' i count).mapM (fun i => Unbounded.word data (base + i * 32)) =
      some ((Bytes.pieces 32 count (table.drop (i * 32))).filterMap Word.ofBytes?) := by
  obtain ⟨hlength, -⟩ := Unbounded.le_of_region htable
  induction count generalizing i with
  | zero => rfl
  | succ count ih =>
      have hpiece : ((table.drop (i * 32)).take 32).length = 32 := by simp; omega
      have hword : Unbounded.word data (base + i * 32) = Word.ofBytes? ((table.drop (i * 32)).take 32) := by
        rw [← Unbounded.word_of_region htable (by omega), Unbounded.word, Unbounded.region,
          if_pos (by omega)]
        rfl
      obtain ⟨w, hw⟩ : ∃ w, Word.ofBytes? ((table.drop (i * 32)).take 32) = some w :=
        ⟨⟨_, hpiece⟩, dif_pos hpiece⟩
      rw [List.range'_succ, List.mapM_cons, hword, hw, ih (i + 1) (by omega), Bytes.pieces,
        List.filterMap_cons_some hw, List.drop_drop, Nat.succ_mul]
      rfl

theorem toOption_wordsAt (hdata : data.length < UInt64.size) {index : UInt64}
    (hindex : (index * 32).toNat = index.toNat * 32) :
    (wordsAt data index).toOption = Unbounded.wordsAt data index.toNat := by
  refine toOption_counted hdata hindex fun start count _ table htable => ?_
  have hcount : (table.length + (wordSize - 1)) / wordSize = count.toNat := by
    rw [(Unbounded.le_of_region htable).1, wordSize]
    omega
  rw [mapM_word_eq_pieces htable count.toNat 0 (by simp), Bytes.chunks, hcount]
  rfl

theorem toOption_tailOf (hdata : data.length < UInt64.size) :
    (tailOf data).toOption = Unbounded.tailOf data := by
  refine toOption_positionAt_bind hdata (fun _ start => ?_) fun n hn => ?_
  · rw [toOption_bind, toOption_region hdata]
    rfl
  · rw [Unbounded.region_eq_none (by omega)]
    rfl

end Exact

/-! ## Steps that are not checked -/

/-- How a reader ends early: as it is meant to, or by a step that leaves 64 bits or the buffer. -/
inductive Trap where
  | mismatch (found : Mismatch)
  | overflow
  | outside

namespace Trapping

/-- A step that is checked by the reader itself. -/
def checked {α : Type} : Except Mismatch α → Except Trap α
  | .ok a => .ok a
  | .error found => .error (.mismatch found)

def add (a b : UInt64) : Except Trap UInt64 :=
  if a.toNat + b.toNat < UInt64.size then .ok (a + b) else .error .overflow

def mul (a b : UInt64) : Except Trap UInt64 :=
  if a.toNat * b.toNat < UInt64.size then .ok (a * b) else .error .overflow

/-- All bytes from position `start` on. -/
def rest (data : Bytes) (start : UInt64) : Except Trap Bytes :=
  if start.toNat ≤ data.length then .ok (data.drop start.toNat) else .error .outside

def bytesAtOffset (shape : Shape) (data : Bytes) (start : UInt64) : Except Trap Bytes := do
  let length ← checked (positionAt shape data start)
  let body ← add start 32
  checked (region shape data body length)

def wordAt (data : Bytes) (index : UInt64) : Except Trap Word := do
  let head ← mul index 32
  checked (wordAtOffset .staticWord data head)

def bytesAt (data : Bytes) (index : UInt64) : Except Trap Bytes := do
  let head ← mul index 32
  let start ← checked (positionAt .dynamicValue data head)
  bytesAtOffset .dynamicValue data start

def elementsFrom (data : Bytes) (base : UInt64) (table : Bytes) :
    (count : Nat) → (i : UInt64) → Except Trap (List Bytes)
  | 0, _ => .ok []
  | count + 1, i => do
    let entry ← mul i 32
    let relative ← checked (positionAt .bytesArray table entry)
    let start ← checked (representable .bytesArray data (checkedAdd base relative))
    let item ← bytesAtOffset .bytesArray data start
    let next ← add i 1
    let items ← elementsFrom data base table count next
    return item :: items

def bytesArrayAt (data : Bytes) (index : UInt64) : Except Trap (List Bytes) := do
  let head ← mul index 32
  let start ← checked (positionAt .bytesArray data head)
  let count ← checked (positionAt .bytesArray data start)
  let base ← add start 32
  let size ← checked (representable .bytesArray data (checkedMul count 32))
  let table ← checked (region .bytesArray data base size)
  elementsFrom data base table count.toNat 0

def wordsAt (data : Bytes) (index : UInt64) : Except Trap (List Word) := do
  let head ← mul index 32
  let start ← checked (positionAt .wordArray data head)
  let count ← checked (positionAt .wordArray data start)
  let size ← checked (representable .wordArray data (checkedMul count 32))
  let base ← add start 32
  let body ← checked (region .wordArray data base size)
  return (body.chunks wordSize).filterMap Word.ofBytes?

def tailOf (data : Bytes) : Except Trap Bytes := do
  let start ← checked (positionAt .dynamicTail data 0)
  let _ ← checked (region .dynamicTail data start 32)
  rest data start

section Safe

variable {α β : Type} {shape : Shape} {data : Bytes} {start index : UInt64}

/-- Behind a checked step, only what follows a success of it can trap. -/
theorem checked_bind {x : Except Mismatch α} {next : α → Except Mismatch β} {trapping : α → Except Trap β}
    (h : ∀ a, x = .ok a → trapping a = checked (next a)) :
    (checked x >>= trapping) = checked (x >>= next) := by
  cases hx : x with
  | ok a => exact h a hx
  | error found => rfl

theorem add_eq_ok {a b : UInt64} (h : a.toNat + b.toNat < UInt64.size) : add a b = .ok (a + b) := if_pos h

theorem mul_eq_ok {a b : UInt64} (h : a.toNat * b.toNat < UInt64.size) : mul a b = .ok (a * b) := if_pos h

theorem le_of_region {bytes : Bytes} {length : UInt64} (hdata : data.length < UInt64.size)
    (h : region shape data start length = .ok bytes) :
    bytes.length = length.toNat ∧ start.toNat + length.toNat ≤ data.length := by
  have hregion : (region shape data start length).toOption = _ := toOption_region hdata start length
  rw [h] at hregion
  exact Unbounded.le_of_region hregion.symm

theorem toNat_of_narrow {n : Nat} {x : UInt64} (h : representable shape data (narrow n) = .ok x) :
    x.toNat = n := by
  unfold narrow at h
  split at h
  · next hfits =>
    cases h
    exact UInt64.toNat_ofNat_of_lt' hfits
  · cases h

/-- Where a number was read, a word fits. -/
theorem add_word_of_positionAt {n : UInt64} (hdata : data.length < UInt64.size)
    (h : positionAt shape data start = .ok n) : add start 32 = .ok (start + 32) := by
  obtain ⟨w, hword, -⟩ := Except.bind_eq_ok.mp h
  obtain ⟨bytes, hregion, -⟩ := Except.bind_eq_ok.mp hword
  obtain ⟨-, hinside⟩ := le_of_region hdata hregion
  exact add_eq_ok (by omega)

theorem bytesAtOffset_eq (hdata : data.length < UInt64.size) (start : UInt64) :
    bytesAtOffset shape data start = checked (Abi.bytesAtOffset shape data start) := by
  refine checked_bind fun length hlength => ?_
  rw [add_word_of_positionAt hdata hlength, Except.ok_bind]

theorem wordAt_eq (hindex : mul index 32 = .ok (index * 32)) :
    wordAt data index = checked (Abi.wordAt data index) := by
  rw [wordAt, hindex]
  rfl

theorem bytesAt_eq (hdata : data.length < UInt64.size) (hindex : mul index 32 = .ok (index * 32)) :
    bytesAt data index = checked (Abi.bytesAt data index) := by
  rw [bytesAt, hindex, Except.ok_bind]
  exact checked_bind fun start _ => bytesAtOffset_eq hdata start

theorem elementsFrom_eq {base : UInt64} {table : Bytes} (hdata : data.length < UInt64.size)
    (htable : table.length < UInt64.size) (count : Nat) (i : UInt64)
    (hcount : (i.toNat + count) * 32 ≤ table.length) :
    elementsFrom data base table count i = checked (Abi.elementsFrom data base table count i) := by
  induction count generalizing i with
  | zero => rfl
  | succ count ih =>
      have hentry : mul i 32 = .ok (i * 32) := mul_eq_ok (by simp; omega)
      have hnext : i.toNat + (1 : UInt64).toNat < UInt64.size := by simp; omega
      have hsucc : (i + 1).toNat = i.toNat + 1 := toNat_add_of_lt hnext
      rw [elementsFrom, Abi.elementsFrom, hentry, Except.ok_bind]
      refine checked_bind fun relative _ => checked_bind fun start _ => ?_
      rw [bytesAtOffset_eq hdata]
      refine checked_bind fun item _ => ?_
      rw [add_eq_ok hnext, Except.ok_bind, ih (i + 1) (by omega)]
      exact checked_bind fun items _ => rfl

theorem bytesArrayAt_eq (hdata : data.length < UInt64.size) (hindex : mul index 32 = .ok (index * 32)) :
    bytesArrayAt data index = checked (Abi.bytesArrayAt data index) := by
  rw [bytesArrayAt, hindex, Except.ok_bind]
  refine checked_bind fun start _ => checked_bind fun count hcount => ?_
  rw [add_word_of_positionAt hdata hcount, Except.ok_bind]
  refine checked_bind fun size hsize => checked_bind fun table htable => ?_
  obtain ⟨hlength, hinside⟩ := le_of_region hdata htable
  rw [checkedMul_eq_narrow] at hsize
  have hwords : size.toNat = count.toNat * 32 := toNat_of_narrow hsize
  exact elementsFrom_eq hdata (by omega) count.toNat 0 (by simp; omega)

theorem wordsAt_eq (hdata : data.length < UInt64.size) (hindex : mul index 32 = .ok (index * 32)) :
    wordsAt data index = checked (Abi.wordsAt data index) := by
  rw [wordsAt, hindex, Except.ok_bind]
  refine checked_bind fun start _ => checked_bind fun count hcount => checked_bind fun size _ => ?_
  rw [add_word_of_positionAt hdata hcount, Except.ok_bind]
  exact checked_bind fun body _ => rfl

theorem tailOf_eq (hdata : data.length < UInt64.size) : tailOf data = checked (Abi.tailOf data) := by
  refine checked_bind fun start _ => checked_bind fun word hword => ?_
  obtain ⟨-, hinside⟩ := le_of_region hdata hword
  exact if_pos (by omega)

end Safe

end Trapping

/-! ## Both at once -/

/-- A reader finds exactly what is found with numbers of any size, and no step of it goes wrong. -/
structure Faithful {α : Type} (reader : Except Mismatch α) (plain : Option α) (trapping : Except Trap α) :
    Prop where
  finds : reader.toOption = plain
  untrapped : trapping = Trapping.checked reader

/-- Whatever positions, lengths and counts a buffer claims, a value is read if and only if all its regions lie
in the buffer, and then it is what stands there. Anything else is a mismatch: no number leaves 64 bits and no
byte outside the buffer is asked for. -/
theorem readers_faithful (data : Bytes) (hdata : data.length < 2 ^ 63) :
    (∀ index : UInt64, index.toNat < 2 ^ 59 →
      Faithful (wordAt data index) (Unbounded.wordAt data index.toNat) (Trapping.wordAt data index) ∧
      Faithful (bytesAt data index) (Unbounded.bytesAt data index.toNat) (Trapping.bytesAt data index) ∧
      Faithful (bytesArrayAt data index) (Unbounded.bytesArrayAt data index.toNat)
        (Trapping.bytesArrayAt data index) ∧
      Faithful (wordsAt data index) (Unbounded.wordsAt data index.toNat) (Trapping.wordsAt data index)) ∧
    Faithful (tailOf data) (Unbounded.tailOf data) (Trapping.tailOf data) := by
  have hsize : data.length < UInt64.size := Nat.lt_trans hdata (by decide)
  refine ⟨fun index hindex => ?_, toOption_tailOf hsize, Trapping.tailOf_eq hsize⟩
  have hhead : index.toNat * (32 : UInt64).toNat < UInt64.size := by
    simp [UInt64.size]
    omega
  have hmul : Trapping.mul index 32 = .ok (index * 32) := Trapping.mul_eq_ok hhead
  have hstart : (index * 32).toNat = index.toNat * 32 := toNat_mul_of_lt hhead
  exact ⟨⟨toOption_wordAt hsize hstart, Trapping.wordAt_eq hmul⟩,
    ⟨toOption_bytesAt hsize hstart, Trapping.bytesAt_eq hsize hmul⟩,
    ⟨toOption_bytesArrayAt hsize hstart, Trapping.bytesArrayAt_eq hsize hmul⟩,
    ⟨toOption_wordsAt hsize hstart, Trapping.wordsAt_eq hsize hmul⟩⟩

/-- Two elements of an array share their bytes, which end with the buffer; or the second one claims to stand
at the largest number there is. -/
theorem readers_faithful_shared :
    let buffer (second : Nat) : Bytes :=
      [Word.ofNat 32, Word.ofNat 2, Word.ofNat 64, Word.ofNat second, Word.ofNat 3].flatMap (·.bytes) ++
        [7, 8, 9]
    (buffer 64).length < 2 ^ 63 ∧ (buffer (2 ^ 256 - 1)).length < 2 ^ 63 ∧ (0 : UInt64).toNat < 2 ^ 59 ∧
      (bytesArrayAt (buffer 64) 0).toOption = some [[7, 8, 9], [7, 8, 9]] ∧
      (bytesArrayAt (buffer (2 ^ 256 - 1)) 0).toOption = none ∧
      Trapping.bytesArrayAt (buffer (2 ^ 256 - 1)) 0 =
        Trapping.checked (bytesArrayAt (buffer (2 ^ 256 - 1)) 0) := by
  intro buffer
  have hshared : (buffer 64).length < 2 ^ 63 := by decide +kernel
  have hfar : (buffer (2 ^ 256 - 1)).length < 2 ^ 63 := by decide +kernel
  have hindex : (0 : UInt64).toNat < 2 ^ 59 := by decide
  obtain ⟨-, -, harray, -⟩ := (readers_faithful (buffer 64) hshared).1 0 hindex
  obtain ⟨-, -, hnone, -⟩ := (readers_faithful (buffer (2 ^ 256 - 1)) hfar).1 0 hindex
  refine ⟨hshared, hfar, hindex, harray.finds.trans ?_, hnone.finds.trans ?_, hnone.untrapped⟩
  · decide +kernel
  · decide +kernel

end CallScript.Abi
