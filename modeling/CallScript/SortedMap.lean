/-!
# Maps in key order

A finite map kept as a list of entries with strictly increasing keys, so that two maps with the same
bindings are equal.
-/

namespace CallScript

/-- A strict total order on keys. -/
class KeyOrder (κ : Type) where
  Before : κ → κ → Prop
  decidable (a b : κ) : Decidable (Before a b)
  irrefl (a : κ) : ¬ Before a a
  trans {a b c : κ} : Before a b → Before b c → Before a c
  trichotomous {a b : κ} : ¬ Before a b → ¬ Before b a → a = b

instance {κ : Type} [KeyOrder κ] (a b : κ) : Decidable (KeyOrder.Before a b) :=
  KeyOrder.decidable a b

/-- A finite map; the keys of its entries increase strictly. -/
structure SortedMap (κ α : Type) [KeyOrder κ] where
  entries : List (κ × α)
  sorted : entries.Pairwise (fun a b => KeyOrder.Before a.1 b.1)

namespace SortedMap

variable {κ α : Type} [KeyOrder κ]

def empty : SortedMap κ α := ⟨[], .nil⟩

instance : Inhabited (SortedMap κ α) := ⟨empty⟩

/-- The number of keys. -/
def size (m : SortedMap κ α) : Nat := m.entries.length

def isEmpty (m : SortedMap κ α) : Bool := m.entries.isEmpty

/-- The value bound to a key. -/
def get? [DecidableEq κ] (m : SortedMap κ α) (key : κ) : Option α :=
  m.entries.lookup key

/-- Removes a key. -/
def erase [DecidableEq κ] (m : SortedMap κ α) (key : κ) : SortedMap κ α :=
  ⟨m.entries.filter (·.1 ≠ key), m.sorted.filter _⟩

/-- Binds a key in a list of entries, in its place. -/
def insertEntry (key : κ) (value : α) : List (κ × α) → List (κ × α)
  | [] => [(key, value)]
  | entry :: rest =>
    if KeyOrder.Before key entry.1 then (key, value) :: entry :: rest
    else if KeyOrder.Before entry.1 key then entry :: insertEntry key value rest
    else (key, value) :: rest

theorem mem_insertEntry {key : κ} {value : α} {entry : κ × α} :
    {entries : List (κ × α)} → entry ∈ insertEntry key value entries →
      entry.1 = key ∨ entry ∈ entries
  | [], h => by simp_all [insertEntry]
  | first :: rest, h => by
    unfold insertEntry at h
    split at h
    · rcases List.mem_cons.mp h with rfl | h
      · exact .inl rfl
      · exact .inr h
    · split at h
      · rcases List.mem_cons.mp h with rfl | h
        · exact .inr (List.mem_cons_self ..)
        · exact (mem_insertEntry h).imp_right (List.mem_cons_of_mem _)
      · rcases List.mem_cons.mp h with rfl | h
        · exact .inl rfl
        · exact .inr (List.mem_cons_of_mem _ h)

theorem sorted_insertEntry (key : κ) (value : α) :
    {entries : List (κ × α)} → entries.Pairwise (fun a b => KeyOrder.Before a.1 b.1) →
      (insertEntry key value entries).Pairwise (fun a b => KeyOrder.Before a.1 b.1)
  | [], _ => List.pairwise_singleton ..
  | first :: rest, h => by
    obtain ⟨hfirst, hrest⟩ := List.pairwise_cons.mp h
    unfold insertEntry
    split
    · next hlt =>
      refine List.pairwise_cons.mpr ⟨fun entry hentry => ?_, h⟩
      rcases List.mem_cons.mp hentry with rfl | hentry
      · exact hlt
      · exact KeyOrder.trans hlt (hfirst entry hentry)
    · next hnot =>
      split
      · next hgt =>
        refine List.pairwise_cons.mpr ⟨fun entry hentry => ?_, sorted_insertEntry key value hrest⟩
        rcases mem_insertEntry hentry with heq | hentry
        · exact heq ▸ hgt
        · exact hfirst entry hentry
      · next hngt =>
        have heq : key = first.1 := KeyOrder.trichotomous hnot hngt
        exact List.pairwise_cons.mpr ⟨fun entry hentry => heq ▸ hfirst entry hentry, hrest⟩

/-- Binds a key, in place of any earlier binding. -/
def insert (m : SortedMap κ α) (key : κ) (value : α) : SortedMap κ α :=
  ⟨insertEntry key value m.entries, sorted_insertEntry key value m.sorted⟩

/-- The map of a list of entries; of two entries with one key the later counts. -/
def ofList (entries : List (κ × α)) : SortedMap κ α :=
  entries.foldl (fun m entry => m.insert entry.1 entry.2) empty

end SortedMap

end CallScript
