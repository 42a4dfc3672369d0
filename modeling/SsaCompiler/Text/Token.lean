/-!
# Tokens of the textual form

One line of module text is a list of tokens. Names are kept without their sigil, string literals
with their quotes.
-/

set_option autoImplicit false

namespace SsaCompiler

/-- A token of the textual form. -/
inductive Token
  /-- A bare word: an instruction, a declaration keyword, a type or a block label. -/
  | ident (name : String)
  /-- A value name, written with a percent sign. -/
  | localName (name : String)
  /-- The name of a global, string or function, written with an at sign. -/
  | symbol (name : String)
  /-- A block name, written with a caret. -/
  | block (name : String)
  /-- A decimal number that fits 64 bits. -/
  | int (value : Int)
  /-- A string literal, quotes included. -/
  | str (literal : String)
  /-- The arrow before a return type. -/
  | arrow
  /-- A one-character separator. -/
  | punct (c : Char)
  deriving DecidableEq, Repr, Inhabited

end SsaCompiler
