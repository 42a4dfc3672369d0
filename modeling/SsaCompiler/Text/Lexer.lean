import SsaCompiler.Text.Fault

/-!
# Reading tokens

A line is cut into tokens from left to right. Blanks separate tokens, and a semicolon starts a
comment that ends with the line.
-/

set_option autoImplicit false

namespace SsaCompiler

namespace Token

/-- Whether a character may stand in a name. -/
def isNameChar (c : Char) : Bool := c.isAlphanum || c == '_' || c == '.'

/-- Whether a character is a blank between tokens. -/
def isBlank (c : Char) : Bool := c == ' ' || c == '\t' || c == '\r'

/-- The one-character separators. -/
def separators : List Char := ['=', ',', '(', ')', '[', ']', '\x7b', '\x7d', ':']

/-- The number of characters up to the quote that closes a string literal, that quote included. A
backslash takes the character behind it along. -/
def closing? : List Char → Option Nat
  | [] => none
  | '\\' :: _ :: rest => (closing? rest).map (· + 2)
  | '\\' :: [] => none
  | '"' :: _ => some 1
  | _ :: rest => (closing? rest).map (· + 1)

/-- The value of decimal digits. -/
def digitsValue (digits : List Char) : Nat :=
  digits.foldl (fun n d => 10 * n + (d.toNat - 48)) 0

/-- The number that a literal spells, an optional minus sign and digits, if it fits 64 bits. -/
def intValue? : List Char → Option Int
  | '-' :: digits =>
    if digits.isEmpty || 9223372036854775808 < digitsValue digits then none
    else some (-(digitsValue digits : Int))
  | digits =>
    if digits.isEmpty || 9223372036854775807 < digitsValue digits then none
    else some (digitsValue digits)

/-- The token of a name behind its sigil. -/
def named (sigil : Char) (name : String) : Token :=
  if sigil = '%' then localName name else if sigil = '@' then symbol name else block name

/-- The tokens of a line. -/
def scan : List Char → Except TextFault (List Token)
  | [] => return []
  | c :: rest =>
    if c = ';' then return []
    else if isBlank c then scan rest
    else if c = '%' || c = '@' || c = '^' then
      let name := rest.takeWhile isNameChar
      if name.isEmpty then throw (.missingName c)
      else return named c (String.ofList name) :: (← scan (rest.drop name.length))
    else if c = '"' then
      match closing? rest with
      | none => throw .unterminatedString
      | some n => return str (String.ofList (c :: rest.take n)) :: (← scan (rest.drop n))
    else if c = '-' && rest.head? = some '>' then
      return arrow :: (← scan (rest.drop 1))
    else if c = '-' || c.isDigit then
      let literal := c :: rest.takeWhile Char.isDigit
      match intValue? literal with
      | none => throw (.invalidInteger (String.ofList literal))
      | some n => return int n :: (← scan (rest.drop (literal.length - 1)))
    else if separators.contains c then return punct c :: (← scan rest)
    else if c.isAlpha || c = '_' then
      let name := rest.takeWhile isNameChar
      return ident (String.ofList (c :: name)) :: (← scan (rest.drop name.length))
    else throw (.unexpectedCharacter c)
termination_by line => line.length
decreasing_by all_goals (simp only [List.length_cons, List.length_drop]; omega)

end Token

end SsaCompiler
