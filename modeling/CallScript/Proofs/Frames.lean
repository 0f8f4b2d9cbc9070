import CallScript.Frame
import Mathlib.Data.List.Induction

/-!
# Frames along chains of calls

A delegation keeps the account, the sender and the value of the frame that makes it, and every other call
replaces all three. So a frame acts in the name that the last other call of its chain has given to it,
however many delegations have followed. What is static stays so.
-/

namespace CallScript

/-- A call as the frame that makes it sees it. -/
structure Link where
  kind : CallKind
  target : Address
  value : Word
  deriving DecidableEq

namespace Frame

variable {f g h : Frame}

/-- The frame at the end of a chain of calls, each made from the frame of the one before. -/
def descend (root : Frame) (chain : List Link) : Frame :=
  chain.foldl (fun frame link => frame.child link.kind link.target link.value) root

@[simp] theorem descend_nil (root : Frame) : root.descend [] = root := rfl

@[simp] theorem descend_concat (root : Frame) (chain : List Link) (link : Link) :
    root.descend (chain ++ [link]) = (root.descend chain).child link.kind link.target link.value := by
  simp [descend]

/-- Two frames act for the same account, after the same sender and with the same value. -/
structure InNameOf (f g : Frame) : Prop where
  address : f.address = g.address
  sender : f.sender = g.sender
  value : f.value = g.value

theorem InNameOf.refl (f : Frame) : f.InNameOf f := ⟨rfl, rfl, rfl⟩

theorem InNameOf.trans (hfg : f.InNameOf g) (hgh : g.InNameOf h) : f.InNameOf h :=
  ⟨hfg.address.trans hgh.address, hfg.sender.trans hgh.sender, hfg.value.trans hgh.value⟩

/-! ## One call -/

section

variable (parent : Frame) (kind : CallKind) (target : Address) (value : Word)

theorem code_child : (parent.child kind target value).code = target := by
  cases kind <;> rfl

theorem inNameOf_child_delegate : (parent.child .delegate target value).InNameOf parent := ⟨rfl, rfl, rfl⟩

theorem isStatic_child_iff :
    (parent.child kind target value).isStatic = true ↔ parent.isStatic = true ∨ kind = .static := by
  cases kind <;> simp [child]

theorem child_of_ne_delegate (hkind : kind ≠ .delegate) :
    (parent.child kind target value).address = target ∧
      (parent.child kind target value).sender = parent.address ∧
      (parent.child kind target value).value = if kind = .value then value else .zero := by
  cases kind with
  | delegate => exact absurd rfl hkind
  | call => exact ⟨rfl, rfl, rfl⟩
  | static => exact ⟨rfl, rfl, rfl⟩
  | value => exact ⟨rfl, rfl, rfl⟩

end

/-! ## Chains of calls -/

theorem code_descend (root : Frame) (chain : List Link) :
    (root.descend chain).code = (chain.getLast?.map Link.target).getD root.code := by
  rcases List.eq_nil_or_concat chain with rfl | ⟨before, link, rfl⟩
  · rfl
  · simp [code_child]

theorem isStatic_descend (root : Frame) (chain : List Link) :
    (root.descend chain).isStatic = true ↔ root.isStatic = true ∨ ∃ link ∈ chain, link.kind = .static := by
  induction chain using List.reverseRecOn with
  | nil => simp
  | append_singleton chain link ih =>
      rw [descend_concat, isStatic_child_iff, ih]
      simp only [List.mem_append, List.mem_singleton, or_and_right, exists_or, exists_eq_left, or_assoc]

/-- A chain is made of delegations only, or the last call in it that is none decides on the name. -/
theorem inNameOf_descend (root : Frame) (chain : List Link) :
    (∀ link ∈ chain, link.kind = .delegate) ∧ (root.descend chain).InNameOf root ∨
      ∃ before link after, chain = before ++ link :: after ∧ link.kind ≠ .delegate ∧
        (∀ later ∈ after, later.kind = .delegate) ∧
        (root.descend chain).InNameOf (root.descend (before ++ [link])) := by
  induction chain using List.reverseRecOn with
  | nil => exact .inl ⟨by simp, .refl root⟩
  | append_singleton chain link ih =>
      by_cases hlink : link.kind = .delegate
      · have hname : (root.descend (chain ++ [link])).InNameOf (root.descend chain) := by
          rw [descend_concat, hlink]
          exact inNameOf_child_delegate ..
        rcases ih with ⟨hchain, hroot⟩ | ⟨before, own, after, rfl, hown, hafter, hchain⟩
        · refine .inl ⟨?_, hname.trans hroot⟩
          simpa [or_imp, forall_and, hlink] using hchain
        · refine .inr ⟨before, own, after ++ [link], by simp, hown, ?_, hname.trans hchain⟩
          simpa [or_imp, forall_and, hlink] using hafter
      · exact .inr ⟨chain, link, [], rfl, hlink, by simp, .refl _⟩

/-- Which frame a chain of calls ends in. It runs the code of its last target. If the chain has delegations
only, the account, the sender and the value are those of the root; otherwise they were set by the last call
that is none: its target, the account it was made from, and its value if it carried one. The frame is static
if the root is, or if some call of the chain is. -/
theorem descend_identity (root : Frame) (chain : List Link) :
    (root.descend chain).code = (chain.getLast?.map Link.target).getD root.code ∧
    ((∀ link ∈ chain, link.kind = .delegate) ∧ (root.descend chain).address = root.address ∧
        (root.descend chain).sender = root.sender ∧ (root.descend chain).value = root.value ∨
      ∃ before link after, chain = before ++ link :: after ∧ link.kind ≠ .delegate ∧
        (∀ later ∈ after, later.kind = .delegate) ∧
        (root.descend chain).address = link.target ∧
        (root.descend chain).sender = (root.descend before).address ∧
        (root.descend chain).value = if link.kind = .value then link.value else .zero) ∧
    ((root.descend chain).isStatic = true ↔ root.isStatic = true ∨ ∃ link ∈ chain, link.kind = .static) := by
  refine ⟨code_descend root chain, ?_, isStatic_descend root chain⟩
  rcases inNameOf_descend root chain with ⟨hall, hroot⟩ | ⟨before, link, after, hchain, hlink, hafter, hname⟩
  · exact .inl ⟨hall, hroot.address, hroot.sender, hroot.value⟩
  · rw [descend_concat] at hname
    obtain ⟨haddress, hsender, hvalue⟩ :=
      child_of_ne_delegate (root.descend before) link.kind link.target link.value hlink
    exact .inr ⟨before, link, after, hchain, hlink, hafter, hname.address.trans haddress,
      hname.sender.trans hsender, hname.value.trans hvalue⟩

end Frame

end CallScript
