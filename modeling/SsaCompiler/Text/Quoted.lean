import SsaCompiler.Text.Printable
import SsaCompiler.Text.Token

/-!
# Quoted text in diagnostics

A diagnostic shows a token by its kind and its quoted text. Quoting escapes the quote, the
backslash, the usual control characters, and by code point whatever does not print on its own.
-/

set_option autoImplicit false

namespace SsaCompiler

namespace Quoted

/-- The lower-case hexadecimal digits of a number. -/
def hex (n : Nat) : List Char := Nat.toDigits 16 n

/-- How one character is written between the quotes. -/
def escape (c : Char) : List Char :=
  if c = '"' then ['\\', '"']
  else if c = '\\' then ['\\', '\\']
  else if c = '\t' then ['\\', 't']
  else if c = '\n' then ['\\', 'n']
  else if c = '\r' then ['\\', 'r']
  else if c.toNat = 0 then ['\\', '0']
  else if Printable.standsAlone c then [c]
  else ['\\', 'u', '\x7b'] ++ hex c.toNat ++ ['\x7d']

/-- A text in quotes. -/
def quote (s : String) : String :=
  String.ofList ('"' :: s.toList.flatMap escape ++ ['"'])

end Quoted

namespace Token

/-- How a diagnostic names a token. -/
def describe : Token → String
  | ident name => s!"Ident({Quoted.quote name})"
  | localName name => s!"Local({Quoted.quote name})"
  | symbol name => s!"Symbol({Quoted.quote name})"
  | block name => s!"Block({Quoted.quote name})"
  | int value => s!"Int({value})"
  | str literal => s!"Str({Quoted.quote literal})"
  | arrow => "Arrow"
  | punct c => s!"Punct('{c}')"

end Token

end SsaCompiler
