import CallScript.Proofs.Arithmetic
import CallScript.Proofs.Ledger
import CallScript.Proofs.Termination

/-!
# Paying for runs

The value of a run goes from its caller to the account it runs as before anything is called. That fails
for two reasons: the caller has less than the value, or the receiver would have more than a word can hold.
Both are reported as a balance that does not suffice.
-/

namespace CallScript

/-! ## Transfers -/

namespace Store

variable (s : Store) (sender receiver : Address) (amount : Word)

/-- The receiver would have more than a word can hold. An account that pays itself has no more than before. -/
def Overflows : Prop :=
  balanceKey receiver ≠ balanceKey sender ∧ 2 ^ 256 ≤ (s.balance receiver).toNat + amount.toNat

theorem balance_setBalance (account : Address) :
    (s.setBalance sender amount).balance account =
      if balanceKey account = balanceKey sender then amount else s.balance account := by
  rw [balance, word_setBalance, Function.update_apply, balance]

theorem transfer_eq_ok_iff :
    (s.transfer sender receiver amount).1 = .ok () ↔
      amount.toNat ≤ (s.balance sender).toNat ∧ ¬ s.Overflows sender receiver amount := by
  have hsender := Word.toNat_lt (s.balance sender)
  rw [transfer, Word.sub?_eq_ite, Overflows]
  by_cases hle : amount.toNat ≤ (s.balance sender).toNat
  · have hremaining : (Word.ofNat ((s.balance sender).toNat - amount.toNat)).toNat =
        (s.balance sender).toNat - amount.toNat := Word.toNat_ofNat (by omega)
    simp only [if_pos hle, balance_setBalance, Word.add?_eq_ite]
    by_cases hkey : balanceKey receiver = balanceKey sender
    · -- The amount is added to what is left without it.
      rw [if_pos hkey, hremaining, if_pos (by omega)]
      exact iff_of_true rfl ⟨hle, fun hover => hover.1 hkey⟩
    · rw [if_neg hkey]
      by_cases hover : 2 ^ 256 ≤ (s.balance receiver).toNat + amount.toNat
      · rw [if_neg (Nat.not_lt.mpr hover)]
        exact iff_of_false nofun fun hfits => hfits.2 ⟨hkey, hover⟩
      · rw [if_pos (Nat.not_le.mp hover)]
        exact iff_of_true rfl ⟨hle, fun hfits => hover hfits.2⟩
  · rw [if_neg hle]
    exact iff_of_false nofun fun hfits => hle hfits.1

end Store

/-! ## Payments -/

namespace World

/-- The only error of a payment, and when it arises. -/
theorem payForRun_eq_error_iff {store : Store} {caller executor : Address} {value : Word} {e : RunError} :
    payForRun store caller executor value = .error e ↔
      ((store.balance caller).toNat < value.toNat ∨ store.Overflows caller executor value) ∧
        e = .insufficientBalance (reported value) (reported (store.balance caller)) := by
  have htransfer := store.transfer_eq_ok_iff caller executor value
  rw [payForRun]
  by_cases hzero : value.isZero = true
  · have hvalue : value.toNat = 0 := by
      rw [FixedBytes.isZero_iff.mp hzero]
      exact Word.toNat_zero
    have hreceiver := Word.toNat_lt (store.balance executor)
    rw [if_pos hzero, Store.Overflows, hvalue]
    refine iff_of_false nofun ?_
    omega
  · rw [if_neg hzero]
    generalize store.transfer caller executor value = ended at htransfer ⊢
    rcases ended with ⟨data | _, store'⟩
    · have hfails : (store.balance caller).toNat < value.toNat ∨ store.Overflows caller executor value := by
        by_contra hpays
        rw [not_or, Nat.not_lt] at hpays
        exact absurd (htransfer.mpr hpays) nofun
      simp [hfails, eq_comm]
    · obtain ⟨hle, hfits⟩ := htransfer.mp rfl
      simp [hfits, Nat.not_lt.mpr hle]

theorem reported_of_lt {amount : Word} (h : amount.toNat < 2 ^ 128) : reported amount = amount.toNat := by
  have hfits : amount.toNat < 1 <<< 128 := h
  rw [reported, Word.toNat?, if_pos hfits, Option.getD_some]

/-- What goes wrong in a run is no failure of the payment for it. -/
theorem hold_execute_not_isUnpaid {contracts : Contracts} {frame : Frame} {records state : List Bytes}
    {s inner : Session} {e : RunError}
    (h : (CallScript.execute records state).hold (dispatchFrom contracts 0 frame) s = (.error e, inner)) :
    ¬ e.IsUnpaid := by
  have hrun := (Session.simulates_dispatch contracts maxDepth frame []).hold (CallScript.execute records state) s
  have hhold : (CallScript.execute records state).hold (dispatch contracts maxDepth frame) s =
      (.error e, inner) := h
  rw [hhold] at hrun
  exact Run.execute_not_isUnpaid hrun

theorem execute_eq_unpaid_iff {w : World} {caller executor : Address} {records state : List Bytes}
    {value : Word} {e : RunError} (he : e.IsUnpaid) :
    (w.execute caller executor records state value).1 = .error e ↔
      payForRun w.session.opened.store caller executor value = .error e := by
  cases hpaid : payForRun w.session.opened.store caller executor value with
  | error e' => simp only [World.execute, hpaid, Except.error.injEq]
  | ok store =>
      rw [execute_of_paid records state hpaid]
      generalize hended : Dialogue.hold _ (CallScript.execute records state) _ = ended
      obtain ⟨result, inner⟩ := ended
      refine iff_of_false ?_ (by simp)
      rintro rfl
      exact hold_execute_not_isUnpaid hended he

/-- When a run fails because its balance is said not to suffice: the caller has less than the value, or the
account it runs as would have more than a word can hold. What is to be run has no part in it: nothing is
called, whatever the commands and the contracts are, and the world is left as it is, its journal included. Of
amounts that take up to 128 bits, what is available is reported as less than what is needed if the caller
has less, and only then. -/
theorem execute_unpaid (w : World) (caller executor : Address) (records state : List Bytes) (value : Word) :
    ((∃ needed available,
        (w.execute caller executor records state value).1 = .error (.insufficientBalance needed available)) ↔
      (w.balance caller).toNat < value.toNat ∨ w.store.Overflows caller executor value) ∧
    ∀ needed available,
      (w.execute caller executor records state value).1 = .error (.insufficientBalance needed available) →
      (∀ (contracts : Contracts) (records state : List Bytes),
        { w with contracts }.execute caller executor records state value =
          (.error (.insufficientBalance needed available), { w with contracts })) ∧
      ((w.balance caller).toNat < 2 ^ 128 → value.toNat < 2 ^ 128 →
        (available < needed ↔ (w.balance caller).toNat < value.toNat)) := by
  have hfails (needed available : Nat) :
      (w.execute caller executor records state value).1 = .error (.insufficientBalance needed available) ↔
        ((w.balance caller).toNat < value.toNat ∨ w.store.Overflows caller executor value) ∧
          RunError.insufficientBalance needed available =
            .insufficientBalance (reported value) (reported (w.balance caller)) :=
    (execute_eq_unpaid_iff ⟨needed, available, rfl⟩).trans payForRun_eq_error_iff
  constructor
  · constructor
    · rintro ⟨needed, available, h⟩
      exact ((hfails needed available).mp h).1
    · intro h
      exact ⟨_, _, (hfails _ _).mpr ⟨h, rfl⟩⟩
  · intro needed available h
    have hpaid : payForRun w.session.opened.store caller executor value = _ :=
      (execute_eq_unpaid_iff ⟨needed, available, rfl⟩).mp h
    obtain ⟨-, hreport⟩ := (hfails needed available).mp h
    injection hreport with hneeded havailable
    refine ⟨fun contracts records state => ?_, fun hbalance hvalue => ?_⟩
    · have hsame : payForRun { w with contracts }.session.opened.store caller executor value = _ := hpaid
      simp only [World.execute, hsame]
    · rw [hneeded, havailable, reported_of_lt hvalue, reported_of_lt hbalance]

/-- The caller has more than the value, and the run is refused for want of it. -/
theorem execute_unpaid_overflow :
    let caller : Address := FixedBytes.ofNat 20 1
    let executor : Address := FixedBytes.ofNat 20 2
    let value := Word.ofNat 1
    let w := (World.empty.setBalance caller (Word.ofNat 5)).setBalance executor (Word.ofNat (2 ^ 256 - 1))
    (w.execute caller executor [] [] value).1 = .error (.insufficientBalance 1 5) ∧
      ¬ ((∃ needed available,
          (w.execute caller executor [] [] value).1 = .error (.insufficientBalance needed available)) ↔
        (w.balance caller).toNat < value.toNat) := by
  intro caller executor value w
  have hfails : (w.execute caller executor [] [] value).1 = .error (.insufficientBalance 1 5) := by
    decide +kernel
  have hpays : ¬ (w.balance caller).toNat < value.toNat := by decide +kernel
  exact ⟨hfails, fun h => hpays (h.mp ⟨1, 5, hfails⟩)⟩

end World

end CallScript
