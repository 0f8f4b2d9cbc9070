/-!
# Lines of a text

A line ends with a line feed, together with one carriage return right before it. The last line needs
no end, and a carriage return that no line feed follows belongs to its line.
-/

namespace CallScript.Text

/-- The line that ends with a line feed; its characters are given last first. -/
def endLine : List Char → List Char
  | '\r' :: rest => rest.reverse
  | line => line.reverse

/-- The lines of a text, when the characters in `line`, last first, come before it. -/
def linesFrom (line : List Char) : List Char → List (List Char)
  | [] => if line.isEmpty then [] else [line.reverse]
  | c :: rest => if c = '\n' then endLine line :: linesFrom [] rest else linesFrom (c :: line) rest

/-- The lines of a text. -/
def lines (text : String) : List (List Char) :=
  linesFrom [] text.toList

end CallScript.Text
