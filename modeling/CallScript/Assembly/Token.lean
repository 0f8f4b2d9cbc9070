import CallScript.Assembly.Error
import CallScript.Text.Blank

/-!
# Tokens of a line

Blanks and commas separate tokens, except inside quotes and parentheses. A `#` outside quotes ends
the line.
-/

namespace CallScript.Assembly

/-- A piece of a line and the column at which it begins. -/
structure Token where
  text : String
  column : Nat
  deriving DecidableEq

namespace Token

/-- A token whose end has not been seen: where it begins, and its characters, last first. -/
structure Partial where
  column : Nat
  reversed : List Char

/-- Adds a character that stands at a column. -/
def extend (open? : Option Partial) (column : Nat) (c : Char) : Option Partial :=
  match open? with
  | some p => some ⟨p.column, c :: p.reversed⟩
  | none => some ⟨column, [c]⟩

/-- The token that ends here, if one has begun. -/
def close : Option Partial → List Token
  | some p => [⟨String.ofList p.reversed.reverse, p.column⟩]
  | none => []

/-- Where the scanner stands: outside quotes, inside quotes that were opened at a column, or there
right behind a backslash. -/
inductive Mode where
  | plain
  | quoted (quote : Nat)
  | escaped (quote : Nat)

/-- The end of the part of a line that counts. -/
def finish (depth column : Nat) (open? : Option Partial) : Except Fault (List Token) :=
  if depth > 0 then .error ⟨column, .unbalancedOpen⟩ else .ok (close open?)

/-- Scans characters from a column on, inside `depth` parentheses and behind the beginning of a
token. -/
def scan : Mode → (depth column : Nat) → Option Partial → List Char → Except Fault (List Token)
  | .plain, depth, column, open?, [] => finish depth column open?
  | .quoted quote, _, _, _, [] => .error ⟨quote, .unterminatedString⟩
  | .escaped quote, _, _, _, [] => .error ⟨quote, .unterminatedString⟩
  | .escaped quote, depth, column, open?, c :: rest =>
    scan (.quoted quote) depth (column + c.utf8Size) (extend open? column c) rest
  | .quoted quote, depth, column, open?, c :: rest =>
    let mode := if c = '\\' then .escaped quote else if c = '"' then .plain else .quoted quote
    scan mode depth (column + c.utf8Size) (extend open? column c) rest
  | .plain, depth, column, open?, c :: rest =>
    if c = '#' then finish depth column open?
    else if c = ')' ∧ depth = 0 then .error ⟨column, .unexpectedClose⟩
    else if depth = 0 ∧ (Text.isBlank c ∨ c = ',') then do
      let tokens ← scan .plain depth (column + c.utf8Size) none rest
      return close open? ++ tokens
    else
      let mode := if c = '"' then .quoted column else .plain
      let depth := if c = '(' then depth + 1 else if c = ')' then depth - 1 else depth
      scan mode depth (column + c.utf8Size) (extend open? column c) rest

end Token

/-- The tokens of a line. -/
def tokenize (line : List Char) : Except Fault (List Token) :=
  Token.scan .plain 0 1 none line

end CallScript.Assembly
