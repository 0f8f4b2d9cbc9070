import CallScript.Assembly.Aliases
import CallScript.Script

/-!
# Scripts as assembly text

Slots come first, then the calls, one line each. Known targets are written as aliases.
-/

namespace CallScript.Assembly

/-- The line of a slot: a word if it has 32 bytes, else bytes. -/
def slotLine (value : Bytes) : String :=
  let kind := if value.length = 32 then "word" else "bytes"
  s!"slot {kind} {Hex.render value}\n"

/-- A target as it is written. -/
def renderTarget (aliases : Aliases) (target : Address) : String :=
  match aliases.nameOf? target with
  | some name => s!"@{name}"
  | none => target.toHex

/-- A selector as it is written. -/
def renderSelector (c : Command) : String :=
  if c.isFallback then "fallback" else c.selector.toHex

/-- The words of a call's line. -/
def callWords (aliases : Aliases) (c : Command) : List String :=
  [c.kind.mnemonic, renderTarget aliases c.target, renderSelector c] ++ c.args.map Arg.render ++
    (if c.output = .discard then [] else ["->", c.output.render]) ++
    (Flag.all.filter c.has).map fun flag => "+" ++ flag.name

/-- The line of a call. -/
def callLine (aliases : Aliases) (c : Command) : String :=
  " ".intercalate (callWords aliases c) ++ "\n"

/-- The assembly text of a script. -/
def disassemble (aliases : Aliases) (s : Script) : String :=
  String.join (s.state.map slotLine ++ s.decoded.map (callLine aliases))

end CallScript.Assembly
