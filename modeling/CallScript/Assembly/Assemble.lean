import CallScript.Assembly.Literal
import CallScript.Assembly.Token
import CallScript.Script
import CallScript.Text.Lines

/-!
# Assembling a script

Every line of a source is empty, gives a slot, defines an alias or makes a call.
-/

namespace CallScript.Assembly

/-- What has been read of a call behind its signature. -/
structure Operands where
  args : List Arg := []
  output? : Option Output := none
  flags : UInt8 := 0

/-- The rest of a text behind an arrow. -/
def afterArrow? (text : String) : Option (List Char) :=
  match text.toList with
  | '-' :: '>' :: rest => some rest
  | _ => none

/-- The rest of a text behind a plus. -/
def afterPlus? (text : String) : Option (List Char) :=
  match text.toList with
  | '+' :: rest => some rest
  | _ => none

/-- Reads arguments, output and flags. -/
def parseOperands (read : Operands) : List Token → Except Fault Operands
  | [] => .ok read
  | token :: rest =>
    match afterArrow? token.text with
    | some inline =>
      if read.output?.isSome then .error ⟨token.column, .outputTwice⟩
      else if inline.isEmpty then
        match rest with
        | [] => .error ⟨token.column, .missingOutput⟩
        | target :: rest => do
          let output ← located target.column (parseOutput target.text)
          parseOperands { read with output? := some output } rest
      else do
        let output ← located (token.column + 2) (parseOutput (String.ofList inline))
        parseOperands { read with output? := some output } rest
    | none =>
      match afterPlus? token.text with
      | some name =>
        match Flag.ofName? (String.ofList name) with
        | some flag => parseOperands { read with flags := read.flags ||| flag.bit } rest
        | none => .error ⟨token.column, .unknownFlag (String.ofList name)⟩
      | none =>
        if read.output?.isSome then .error ⟨token.column, .argAfterOutput⟩
        else if read.args.length = Command.maxArgs then .error ⟨token.column, .tooManyArgs⟩
        else do
          let arg ← located token.column (parseArg token.text)
          parseOperands { read with args := read.args ++ [arg] } rest

/-- Whether the first of some arguments can hold the value of a value call. -/
def startsStatic : List Arg → Bool
  | arg :: _ => arg.isStatic
  | [] => false

/-- Reads a call behind its mnemonic, which stands at column `column`. -/
def parseCall (aliases : Aliases) (kind : CallKind) (column : Nat) :
    List Token → Except Fault Command
  | [] => .error ⟨column, .missingTarget⟩
  | first :: rest => do
    let target ← located first.column (parseTarget aliases first.text)
    match rest with
    | [] => throw ⟨first.column, .missingSignature⟩
    | second :: rest =>
      let selector ← located second.column (parseSelector second.text)
      let operands ← parseOperands {} rest
      if kind = .value ∧ ¬ startsStatic operands.args then throw ⟨column, .valueSlotNeeded⟩
      return .make kind selector target operands.args (operands.output?.getD .discard)
        operands.flags

/-- A script in the making, and the aliases known so far. -/
structure Draft where
  script : Script := {}
  aliases : Aliases

namespace Draft

/-- Adds a slot whose directive stands at column `column`. -/
def addSlot (d : Draft) (column : Nat) : List Token → Except Fault Draft
  | [kind, literal] => do
    if d.script.state.length ≥ maxSlots then throw ⟨column, .tooManySlots⟩
    let value ← located literal.column (parseLiteral d.aliases kind.text literal.text)
    return { d with script := { d.script with state := d.script.state ++ [value] } }
  | _ => .error ⟨column, .slotForm⟩

/-- Adds an alias whose directive stands at column `column`. -/
def addAlias (d : Draft) (column : Nat) : List Token → Except Fault Draft
  | [name, address] => do
    let target ← located address.column (parseAddress address.text)
    match d.aliases.define? name.text target with
    | some aliases => return { d with aliases }
    | none => throw ⟨name.column, .aliasTaken name.text⟩
  | _ => .error ⟨column, .aliasForm⟩

/-- Adds a call whose mnemonic stands at column `column`. -/
def addCall (d : Draft) (mnemonic : String) (column : Nat) (rest : List Token) :
    Except Fault Draft := do
  match CallKind.ofMnemonic? mnemonic with
  | none => throw ⟨column, .unknownDirective mnemonic⟩
  | some kind =>
    let command ← parseCall d.aliases kind column rest
    return { d with script := { d.script with commands := d.script.commands ++ [command.toRecord] } }

/-- Adds what the tokens of a line say. -/
def addTokens (d : Draft) : List Token → Except Fault Draft
  | [] => .ok d
  | first :: rest =>
    if first.text = "slot" then d.addSlot first.column rest
    else if first.text = "alias" then d.addAlias first.column rest
    else d.addCall first.text first.column rest

/-- Adds a line. -/
def addLine (d : Draft) (line : List Char) : Except Fault Draft := do
  let tokens ← tokenize line
  d.addTokens tokens

/-- Adds lines, the first of which has number `number`. -/
def addLines (d : Draft) (number : Nat) : List (List Char) → Except Error Draft
  | [] => .ok d
  | line :: rest =>
    match d.addLine line with
    | .error fault => .error ⟨number, fault.column, fault.reason⟩
    | .ok d => d.addLines (number + 1) rest

end Draft

/-- Assembles a source, given the aliases that it can use. -/
def assemble (aliases : Aliases) (source : String) : Except Error Script := do
  let draft ← Draft.addLines { aliases } 1 (Text.lines source)
  return draft.script

end CallScript.Assembly
