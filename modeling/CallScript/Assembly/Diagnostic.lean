import CallScript.Assembly.Error
import CallScript.Text.Lines

/-!
# Diagnostics

An error of the assembler is shown with the line it stands in and a caret below its column.
-/

namespace CallScript.Assembly

/-- The text after blanks that bring it to a width. -/
def padLeft (width : Nat) (text : String) : String :=
  String.ofList (List.replicate (width - text.length) ' ') ++ text

/-- The line without the carriage returns at its end. -/
def trimReturns (line : List Char) : List Char :=
  (line.reverse.dropWhile (· = '\r')).reverse

/-- Shows a reason at a place of a source. The line itself is shown if the source has it. -/
def diagnostic (file source : String) (line column : Nat) (reason : String) : String :=
  let place := s!"error: {reason}\n --> {file}:{line}:{column}\n"
  match (Text.lines source)[line - 1]? with
  | none => place
  | some text =>
    let caret := String.ofList (List.replicate (column - 1) ' ') ++ "^"
    place ++ s!"  |\n{padLeft 4 (toString line)} | {String.ofList (trimReturns text)}\n  | {caret}\n"

/-- Shows an error that has no place in a source. -/
def plainDiagnostic (message : String) : String :=
  s!"error: {message}"

def Error.diagnostic (e : Error) (file source : String) : String :=
  Assembly.diagnostic file source e.line e.column e.reason.message

end CallScript.Assembly
