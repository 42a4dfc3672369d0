/-!
# String constants

A string constant is written as a literal in quotes. Its stored text has the quotes stripped and
every line feed spelled as an escape of three characters, the only escape that stands for
anything: a backslash before other characters is an ordinary character.
-/

set_option autoImplicit false

namespace SsaCompiler

/-- A string constant of a module. -/
structure StringConst where
  name : String
  /-- The text without quotes, line feeds spelled out. -/
  text : String
  /-- The number of bytes with the terminator. -/
  len : Nat
  deriving Repr, Inhabited, DecidableEq

namespace StringConst

/-- A literal without its quotes; a literal that lacks one of them is taken as it stands. -/
def strip (literal : List Char) : List Char :=
  match literal with
  | '"' :: rest => if rest.getLast? = some '"' then rest.dropLast else literal
  | _ => literal

/-- Spells line feeds: a backslash before `n` becomes the stored escape. -/
def spell : List Char → List Char
  | '\\' :: 'n' :: rest => '\\' :: '0' :: 'A' :: spell rest
  | c :: rest => c :: spell rest
  | [] => []

/-- The characters that a stored text stands for. -/
def decode : List Char → List Char
  | '\\' :: '0' :: 'A' :: rest => '\n' :: decode rest
  | c :: rest => c :: decode rest
  | [] => []

/-- The bytes that a stored text stands for, without the terminator. -/
def encode (text : List Char) : List UInt8 := (decode text).flatMap String.utf8EncodeChar

/-- The bytes of a constant, without the terminator. -/
def bytes (s : StringConst) : List UInt8 := encode s.text.toList

/-- The constant of a source literal. -/
def ofLiteral (name literal : String) : StringConst :=
  let text := spell (strip literal.toList)
  { name, text := String.ofList text, len := (encode text).length + 1 }

end StringConst

end SsaCompiler
