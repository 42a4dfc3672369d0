/-!
# Builtin functions

The runtime functions that every module may call and none defines.
-/

set_option autoImplicit false

namespace SsaCompiler

/-- A runtime function. -/
inductive Builtin
  /-- Reads a number. -/
  | getInt
  /-- Prints a number. -/
  | putInt
  /-- Prints a character by its code. -/
  | putCh
  /-- Prints a string. -/
  | putStr
  deriving DecidableEq, Repr, Inhabited

namespace Builtin

/-- All builtins. -/
def all : List Builtin := [getInt, putInt, putCh, putStr]

/-- The name under which a builtin is called. -/
def name : Builtin → String
  | getInt => "getint"
  | putInt => "putint"
  | putCh => "putch"
  | putStr => "putstr"

/-- The builtin with a given name. -/
def ofName? (name : String) : Option Builtin := all.find? fun b => b.name == name

/-- Whether a call gives a value. -/
def returnsValue : Builtin → Bool
  | getInt => true
  | _ => false

/-- The number of arguments of a call. -/
def paramCount : Builtin → Nat
  | getInt => 0
  | _ => 1

end Builtin

end SsaCompiler
