import CallScript.Action

/-!
# The code of a contract

A contract answers the functions it lists. A call is told apart by its first four bytes, the selector
of a function; all other calls go to the fallback. Whatever has a name and code can be deployed.
-/

namespace CallScript

/-- A function of a contract: its signature, and what it does with its arguments. -/
structure Function where
  signature : String
  body : Frame → Bytes → Action Bytes

/-- What a contract does. -/
structure Code where
  name : String
  functions : List Function
  /-- Answers a function that is not listed. -/
  unknown : (signature : String) → (args : Bytes) → Action Bytes :=
    fun signature _ => .revert (.reason s!"{name}: unknown function {signature}")
  /-- Answers a call that reaches no function. -/
  fallback : Frame → (data : Bytes) → Action Bytes :=
    fun _ _ => .revert (.reason s!"{name}: no fallback")

namespace Code

/-- Calls a function by its signature. -/
def invoke (code : Code) (frame : Frame) (signature : String) (args : Bytes) : Action Bytes :=
  match code.functions.find? (·.signature = signature) with
  | some function => function.body frame args
  | none => code.unknown signature args

/-- The function that a call reaches. -/
def functionFor? (code : Code) (input : Bytes) : Option Function :=
  code.functions.find? fun function =>
    (Selector.ofSignature function.signature).bytes = input.take 4

/-- Answers a call. -/
def route (code : Code) (frame : Frame) (input : Bytes) : Action Bytes :=
  match code.functionFor? input with
  | some function => function.body frame (input.drop 4)
  | none => code.fallback frame input

/-- A function answers the calls with its selector, unless a function before it has the same one. -/
theorem route_of_selector {code : Code} {function : Function} (front back : List Function)
    (h : code.functions = front ++ function :: back)
    (hfront : ∀ other ∈ front,
      Selector.ofSignature other.signature ≠ Selector.ofSignature function.signature)
    (frame : Frame) (args : Bytes) :
    code.route frame ((Selector.ofSignature function.signature).bytes ++ args) =
      function.body frame args := by
  have hselector := (Selector.ofSignature function.signature).length_eq
  have hnone : front.find? (fun other =>
      (Selector.ofSignature other.signature).bytes = (Selector.ofSignature function.signature).bytes) =
        none := by
    rw [List.find?_eq_none]
    intro other hother
    simpa using fun heq => hfront other hother (FixedBytes.ext heq)
  simp [route, functionFor?, h, List.take_left' hselector, List.drop_left' hselector, List.find?_append,
    hnone]

end Code

/-- What can be put at an address. -/
class Deployable (κ : Type) where
  name : κ → String
  /-- What a contract does in a call of the given depth. -/
  code : κ → (depth : Nat) → Code

/-- Code that goes by its own name, and may ask how deep it is called. -/
instance : Deployable (Nat → Code) where
  name code := (code 1).name
  code := id

end CallScript
