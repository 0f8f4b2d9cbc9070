import CallScript.Proofs.Store

/-!
# Overlays and copies

Work that may be undone could also be done on a copy: whoever begins copies all bindings, a commit puts the
copy in the place of what it was taken from, and a discard throws it away. A store with overlays copies
nothing and merges its writes, but in any use of it the difference does not show.
-/

namespace CallScript

/-- One use of a store. -/
inductive Use where
  | get (key : Word)
  | put (key : Word) (value : Bytes)
  | erase (key : Word)
  | begin
  | commit
  | discard

namespace Use

/-- What is seen of the bindings. -/
def seen (bindings : Word → Option Bytes) : Use → List (Option Bytes)
  | .get key => [bindings key]
  | _ => []

/-- Makes uses one after the other, and gives all that was seen and what is left. -/
def run {σ : Type} (bindings : σ → Word → Option Bytes) (perform : Use → σ → σ) :
    List Use → σ → List (Option Bytes) × σ
  | [], s => ([], s)
  | use :: rest, s =>
    let (later, final) := run bindings perform rest (perform use s)
    (use.seen (bindings s) ++ later, final)

/-- Two ways to make a use that agree at each step agree on all that is seen. -/
theorem run_view {σ τ : Type} {bindings : σ → Word → Option Bytes} {perform : Use → σ → σ}
    {bindings' : τ → Word → Option Bytes} {perform' : Use → τ → τ} (view : σ → τ)
    (hbindings : ∀ s, bindings' (view s) = bindings s)
    (hperform : ∀ use s, perform' use (view s) = view (perform use s)) (uses : List Use) (s : σ) :
    run bindings' perform' uses (view s) =
      ((run bindings perform uses s).1, view (run bindings perform uses s).2) := by
  induction uses generalizing s with
  | nil => rfl
  | cons use rest ih => simp only [run, hbindings, hperform, ih]

/-- The number of overlays that are open after a use, when `opened` were before; none if there was
nothing to close. -/
def openAfter (opened : Nat) : Use → Option Nat
  | .get _ | .put _ _ | .erase _ => some opened
  | .begin => some (opened + 1)
  | .commit | .discard =>
    match opened with
    | 0 => none
    | rest + 1 => some rest

/-- The overlays that uses leave open, if they close only such as they have opened. -/
def leftOpen (uses : List Use) : Option Nat :=
  uses.foldlM openAfter 0

end Use

/-! ## Copies -/

/-- A copy of all bindings for each overlay that is open, and the bindings at the bottom. -/
@[ext]
structure Copies where
  top : Word → Option Bytes
  /-- What lies below the innermost copy, from the top down. -/
  below : List (Word → Option Bytes)

namespace Copies

/-- A commit or a discard does nothing at the bottom. -/
def perform : Use → Copies → Copies
  | .get _, c => c
  | .put key value, c => { c with top := Function.update c.top key (some value) }
  | .erase key, c => { c with top := Function.update c.top key none }
  | .begin, c => ⟨c.top, c.top :: c.below⟩
  | .commit, ⟨top, _ :: below⟩ => ⟨top, below⟩
  | .discard, ⟨_, parent :: below⟩ => ⟨parent, below⟩
  | .commit, ⟨top, []⟩ | .discard, ⟨top, []⟩ => ⟨top, []⟩

def run : List Use → Copies → List (Option Bytes) × Copies :=
  Use.run top perform

def bottom (c : Copies) : Word → Option Bytes :=
  (c.top :: c.below).getLast (List.cons_ne_nil _ _)

end Copies

/-! ## Stores -/

namespace Store

def perform : Use → Store → Store
  | .get _, s => s
  | .put key value, s => s.put key value
  | .erase key, s => s.erase key
  | .begin, s => s.opened
  | .commit, s => s.commit
  | .discard, s => s.discard

def run : List Use → Store → List (Option Bytes) × Store :=
  Use.run get? perform

/-- The copies that would show what the overlays of a store show. -/
def copies : Store → Copies
  | .base bindings => ⟨bindings.get?, []⟩
  | .overlay below writes => ⟨(overlay below writes).get?, below.copies.top :: below.copies.below⟩

theorem top_copies (s : Store) : s.copies.top = s.get? := by
  cases s with
  | base bindings => rfl
  | overlay below writes => rfl

theorem below_copies_write (s : Store) (key : Word) (value? : Option Bytes) :
    (s.write key value?).copies.below = s.copies.below := by
  cases s <;> cases value? <;> rfl

theorem copies_write (s : Store) (key : Word) (value? : Option Bytes) :
    (s.write key value?).copies = { s.copies with top := Function.update s.copies.top key value? } := by
  refine Copies.ext ?_ (below_copies_write s key value?)
  rw [top_copies, top_copies, get?_write]

theorem below_copies_apply (writes : Writes) (s : Store) : (s.apply writes).copies.below = s.copies.below := by
  induction writes generalizing s with
  | nil => rfl
  | cons write rest ih =>
      have hstep : s.apply (write :: rest) = (s.write write.1 write.2).apply rest := rfl
      rw [hstep, ih, below_copies_write]

theorem copies_commit (below : Store) (writes : SortedMap Word (Option Bytes)) :
    (overlay below writes).commit.copies = ⟨(overlay below writes).get?, below.copies.below⟩ := by
  refine Copies.ext ?_ (below_copies_apply writes.entries below)
  rw [top_copies, get?_commit]

/-- Each use does to the overlays what it does to the copies. -/
theorem copies_perform (use : Use) (s : Store) : s.copies.perform use = (s.perform use).copies := by
  cases use with
  | get key => rfl
  | put key value => exact (copies_write s key (some value)).symm
  | erase key => exact (copies_write s key none).symm
  | begin => exact Copies.ext (top_copies s) rfl
  | commit =>
      cases s with
      | base bindings => rfl
      | overlay below writes => exact (copies_commit below writes).symm
  | discard =>
      cases s with
      | base bindings => rfl
      | overlay below writes => rfl

theorem get?_bottom (s : Store) : s.bottom.get? = s.copies.bottom := by
  induction s with
  | base bindings => rfl
  | overlay below writes ih =>
      simp only [bottom, ih, Copies.bottom, copies]
      exact (List.getLast_cons_cons ..).symm

theorem run_copies (uses : List Use) (s : Store) :
    s.copies.run uses = ((s.run uses).1, (s.run uses).2.copies) :=
  Use.run_view copies top_copies copies_perform uses s

/-! ## What lies below -/

/-- What lies below the `n` innermost overlays. -/
def under : Nat → Store → Option Store
  | 0, s => some s
  | n + 1, .overlay below _ => below.under n
  | _ + 1, .base _ => none

variable {s parent : Store} {n m : Nat}

theorem under_write (h : s.under (n + 1) = some parent) (key : Word) (value? : Option Bytes) :
    (s.write key value?).under (n + 1) = some parent := by
  cases s with
  | base bindings => cases h
  | overlay below writes => cases value? <;> exact h

theorem under_apply (writes : Writes) (h : s.under (n + 1) = some parent) :
    (s.apply writes).under (n + 1) = some parent := by
  induction writes generalizing s with
  | nil => exact h
  | cons write rest ih => exact ih (under_write h write.1 write.2)

/-- A use changes nothing below the overlays that are open around it. -/
theorem under_perform {use : Use} (h : s.under (n + 1) = some parent) (hopen : use.openAfter n = some m) :
    (s.perform use).under (m + 1) = some parent := by
  cases use with
  | get key => cases hopen; exact h
  | put key value => cases hopen; exact under_write h key (some value)
  | erase key => cases hopen; exact under_write h key none
  | begin => cases hopen; exact h
  | commit =>
      cases n with
      | zero => cases hopen
      | succ n =>
          cases hopen
          cases s with
          | base bindings => cases h
          | overlay below writes => exact under_apply writes.entries h
  | discard =>
      cases n with
      | zero => cases hopen
      | succ n =>
          cases hopen
          cases s with
          | base bindings => cases h
          | overlay below writes => exact h

theorem under_run {uses : List Use} (h : s.under (n + 1) = some parent)
    (hopen : uses.foldlM Use.openAfter n = some m) : (s.run uses).2.under (m + 1) = some parent := by
  induction uses generalizing s n with
  | nil => cases hopen; exact h
  | cons use rest ih =>
      obtain ⟨next, hnext, hrest⟩ := Option.bind_eq_some_iff.mp hopen
      exact ih (under_perform h hnext) hrest

/-- Overlays stand for copies. In any use of a store, what is seen, and what is left below all overlays,
is what copies would show. The store on which an overlay is opened stays as it is until that overlay is
closed, and the writes of an overlay are handed down in the order of their keys, each key once. -/
theorem overlays_agree_with_copies (base : SortedMap Word Bytes) (uses : List Use) :
    let ended := (Store.base base).run uses
    let expected := Copies.run uses ⟨base.get?, []⟩
    ended.1 = expected.1 ∧
    ended.2.bottom.get? = expected.2.bottom ∧
    (∀ inside opened, Use.leftOpen inside = some opened →
      (ended.2.opened.run inside).2.under (opened + 1) = some ended.2) ∧
    ended.2.writes.Pairwise (fun a b => a.1 < b.1) ∧ (ended.2.writes.map Prod.fst).Nodup := by
  intro ended expected
  have hrun : expected = (ended.1, ended.2.copies) := run_copies uses (.base base)
  have hsorted : ended.2.writes.Pairwise (fun a b => a.1 < b.1) := by
    cases ended.2 with
    | base bindings => exact .nil
    | overlay below writes => exact writes.sorted
  refine ⟨by rw [hrun], by rw [hrun]; exact get?_bottom ended.2, ?_, hsorted, ?_⟩
  · intro inside opened hopen
    exact under_run rfl hopen
  · rw [List.Nodup, List.pairwise_map]
    refine hsorted.imp ?_
    intro a b hlt heq
    rw [heq] at hlt
    exact KeyOrder.irrefl b.1 hlt

/-- One key over three levels: removed, bound again, and removed once more in vain; and then again on an
overlay that is still open. -/
theorem overlays_agree_with_copies_nested :
    let key := Word.ofNat 1
    let base : SortedMap Word Bytes := SortedMap.empty.insert key [1]
    let uses : List Use := [.begin, .erase key, .get key, .begin, .put key [2], .begin, .erase key,
      .get key, .discard, .get key, .commit, .get key]
    let inside : List Use := [.erase key, .begin, .put key [3], .commit]
    let reached := ((Store.base base).run uses).2
    ((Store.base base).run uses).1 = [none, none, some [2], some [2]] ∧
      reached.bottom.get? key = some [1] ∧
      Use.leftOpen inside = some 0 ∧ (reached.opened.run inside).2.under 1 = some reached := by
  intro key base uses inside reached
  obtain ⟨hseen, hbottom, hunder, -⟩ := overlays_agree_with_copies base uses
  refine ⟨hseen.trans (by decide +kernel), (congrFun hbottom key).trans (by decide +kernel), rfl, ?_⟩
  exact hunder inside 0 rfl

end Store

end CallScript
