import CallScript.Store
import Mathlib.Logic.Function.Basic

/-!
# Stores as maps

A store is read through `get?` alone, so it is the map from keys to values that `get?` shows. Every
operation is described by what it does to that map. The overlays do not show: a commit leaves the map
as it is, although it makes the writes again in the order of their keys.
-/

namespace CallScript

/-! ## Maps in key order -/

namespace SortedMap

variable {κ α : Type} [DecidableEq κ]

theorem lookup_cons (entry : κ × α) (rest : List (κ × α)) (key : κ) :
    (entry :: rest).lookup key = if key = entry.1 then some entry.2 else rest.lookup key := by
  rw [List.lookup_cons]
  by_cases h : key = entry.1
  · simp [h]
  · simp only [beq_eq_false_iff_ne.mpr h, h, ↓reduceIte]

theorem lookup_filter_ne (key other : κ) (entries : List (κ × α)) :
    (entries.filter (·.1 ≠ key)).lookup other =
      if other = key then none else entries.lookup other := by
  induction entries with
  | nil => simp
  | cons entry rest ih =>
      rw [List.filter_cons]
      by_cases hkey : entry.1 = key
      · simp only [hkey, ne_eq, not_true_eq_false, decide_false, Bool.false_eq_true, ↓reduceIte]
        rw [ih, lookup_cons]
        by_cases h : other = key <;> simp [h, hkey]
      · simp only [hkey, ne_eq, not_false_eq_true, decide_true, ↓reduceIte]
        rw [lookup_cons, ih, lookup_cons]
        by_cases h : other = entry.1
        · simp [h, hkey]
        · simp [h]

variable [KeyOrder κ]

theorem lookup_insertEntry (key other : κ) (value : α) :
    (entries : List (κ × α)) →
      (insertEntry key value entries).lookup other =
        if other = key then some value else entries.lookup other
  | [] => by simp only [insertEntry, lookup_cons]
  | (first, bound) :: rest => by
      simp only [insertEntry]
      split
      · simp only [lookup_cons]
      · next hnot =>
        split
        · next hlt =>
          have hne : first ≠ key := fun h => KeyOrder.irrefl key (h ▸ hlt)
          simp only [lookup_cons, lookup_insertEntry key other value rest]
          by_cases h : other = first
          · simp [h, hne]
          · simp [h]
        · next hngt =>
          have heq : key = first := KeyOrder.trichotomous hnot hngt
          subst heq
          simp only [lookup_cons]
          by_cases h : other = key <;> simp [h]

theorem get?_insert (m : SortedMap κ α) (key other : κ) (value : α) :
    (m.insert key value).get? other = if other = key then some value else m.get? other :=
  lookup_insertEntry key other value m.entries

theorem get?_erase (m : SortedMap κ α) (key other : κ) :
    (m.erase key).get? other = if other = key then none else m.get? other :=
  lookup_filter_ne key other m.entries

/-- A key that comes before all keys of a list of entries is not bound there. -/
theorem lookup_eq_none_of_before {key : κ} {entries : List (κ × α)}
    (h : ∀ entry ∈ entries, KeyOrder.Before key entry.1) : entries.lookup key = none := by
  induction entries with
  | nil => rfl
  | cons entry rest ih =>
      have hne : key ≠ entry.1 := by
        intro heq
        exact KeyOrder.irrefl key (by simpa [← heq] using h entry (List.mem_cons_self ..))
      rw [lookup_cons, if_neg hne]
      exact ih fun e he => h e (List.mem_cons_of_mem _ he)

/-- An entry of a map is what its key is bound to. -/
theorem get?_of_mem {m : SortedMap κ α} {key : κ} {value : α} (h : (key, value) ∈ m.entries) :
    m.get? key = some value := by
  obtain ⟨entries, hsorted⟩ := m
  rw [get?]
  induction entries with
  | nil => cases h
  | cons entry rest ih =>
      obtain ⟨hfirst, hrest⟩ := List.pairwise_cons.mp hsorted
      rw [lookup_cons]
      rcases List.mem_cons.mp h with rfl | hmem
      · exact if_pos rfl
      · have hne : key ≠ entry.1 := by
          intro heq
          exact KeyOrder.irrefl key (by simpa [← heq] using hfirst _ hmem)
        rw [if_neg hne]
        exact ih hrest hmem

end SortedMap

/-! ## Stores -/

namespace Store

@[simp] theorem get?_put (s : Store) (key : Word) (value : Bytes) :
    (s.put key value).get? = Function.update s.get? key (some value) := by
  funext other
  cases s with
  | base bindings => simp [put, get?, SortedMap.get?_insert, Function.update_apply]
  | overlay below writes =>
      simp only [put, get?, SortedMap.get?_insert, Function.update_apply]
      by_cases h : other = key <;> simp [h]

@[simp] theorem get?_erase (s : Store) (key : Word) :
    (s.erase key).get? = Function.update s.get? key none := by
  funext other
  cases s with
  | base bindings => simp [erase, get?, SortedMap.get?_erase, Function.update_apply]
  | overlay below writes =>
      simp only [erase, get?, SortedMap.get?_insert, Function.update_apply]
      by_cases h : other = key <;> simp [h]

theorem get?_write (s : Store) (key : Word) (value? : Option Bytes) :
    (s.write key value?).get? = Function.update s.get? key value? := by
  cases value? with
  | none => exact get?_erase s key
  | some value => exact get?_put s key value

/-- Writes with increasing keys act key by key, so their order does not matter. -/
theorem get?_apply (key : Word) :
    (writes : Writes) → writes.Pairwise (fun a b => KeyOrder.Before a.1 b.1) → (s : Store) →
      (s.apply writes).get? key = (writes.lookup key).getD (s.get? key)
  | [], _, s => rfl
  | (first, value?) :: rest, hsorted, s => by
      obtain ⟨hfirst, hrest⟩ := List.pairwise_cons.mp hsorted
      have hstep : (s.apply ((first, value?) :: rest)).get? key =
          ((s.write first value?).apply rest).get? key := rfl
      rw [hstep, get?_apply key rest hrest, get?_write, SortedMap.lookup_cons]
      by_cases h : key = first
      · subst h
        simp [SortedMap.lookup_eq_none_of_before hfirst]
      · simp [h]

/-- A commit does not change what is bound. -/
@[simp] theorem get?_commit (s : Store) : s.commit.get? = s.get? := by
  funext key
  cases s with
  | base bindings => rfl
  | overlay below writes =>
      simp only [commit, get?_apply key writes.entries writes.sorted, get?]
      cases h : writes.entries.lookup key <;> simp [SortedMap.get?, h]

@[simp] theorem get?_opened (s : Store) : s.opened.get? = s.get? := rfl

end Store

end CallScript
