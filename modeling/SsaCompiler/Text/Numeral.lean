import SsaCompiler.Text.Lexer

/-!
# Counts on a command line

A count is written in decimal digits, with an optional plus sign before them, and fits 64 bits.
-/

set_option autoImplicit false

namespace SsaCompiler

namespace Text

/-- The largest count. -/
def largestCount : Nat := 0xFFFFFFFFFFFFFFFF

/-- The value of a list of digits that spells a count. -/
def digitsCount? (digits : List Char) : Option Nat :=
  if digits.isEmpty || !digits.all Char.isDigit then none
  else if largestCount < Token.digitsValue digits then none
  else some (Token.digitsValue digits)

/-- The count that a text spells. -/
def count? (s : String) : Option Nat :=
  match s.toList with
  | '+' :: digits => digitsCount? digits
  | digits => digitsCount? digits

end Text

end SsaCompiler
