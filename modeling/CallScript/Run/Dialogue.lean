import CallScript.Journal

/-!
# Dialogues

A run talks to its host: it makes calls, waits for their outcomes, and leaves notes. A dialogue is
the tree of all that it may say, whatever the host answers, so a run can be studied without fixing a
host.
-/

namespace CallScript

/-- A conversation with a host that ends in a result. -/
inductive Dialogue (α : Type) where
  | done (result : α)
  | ask (message : Message) (next : Outcome → Dialogue α)
  | note (line : Note) (next : Dialogue α)

/-- Answers calls, and may remember them. -/
abbrev Host (σ : Type) := Message → σ → Outcome × σ

namespace Dialogue

variable {α β σ : Type}

/-- Goes on after the result. -/
def bind : Dialogue α → (α → Dialogue β) → Dialogue β
  | .done result, k => k result
  | .ask message next, k => .ask message fun outcome => (next outcome).bind k
  | .note line next, k => .note line (next.bind k)

instance : Monad Dialogue where
  pure := .done
  bind := bind

/-- Holds a dialogue with a host; the notes are not shown to it. -/
def run (host : Host σ) : Dialogue α → σ → α × σ
  | .done result, s => (result, s)
  | .ask message next, s =>
    let (outcome, s) := host message s
    (next outcome).run host s
  | .note _ next, s => next.run host s

end Dialogue

end CallScript
