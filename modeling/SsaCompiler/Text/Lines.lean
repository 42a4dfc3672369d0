/-!
# Lines of a text

A line ends at a line feed, which may have a carriage return before it; neither belongs to the
line. A text that ends in a line feed has no further, empty line behind it.
-/

set_option autoImplicit false

namespace SsaCompiler

namespace Text

/-- A line without the carriage return at its end. -/
def chomp (line : List Char) : List Char :=
  if line.getLast? = some '\r' then line.dropLast else line

/-- The lines of a text, the characters of the first line so far in `line`, latest first. -/
def linesFrom (line : List Char) : List Char → List (List Char)
  | [] => if line.isEmpty then [] else [line.reverse]
  | c :: rest => if c = '\n' then chomp line.reverse :: linesFrom [] rest
    else linesFrom (c :: line) rest

/-- The lines of a text. -/
def lines (text : String) : List String := (linesFrom [] text.toList).map String.ofList

end Text

end SsaCompiler
