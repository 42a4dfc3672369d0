import SsaCompiler.Word

/-!
# Operators of the intermediate form

The thirteen two-operand operators, their names, and their value on words.
-/

set_option autoImplicit false

namespace SsaCompiler

/-- A two-operand operator. -/
inductive BinaryOp
  | add
  | sub
  | mul
  | div
  | mod
  | lt
  | le
  | gt
  | ge
  | eq
  | ne
  | and
  | or
  deriving DecidableEq, Repr, Inhabited

namespace BinaryOp

/-- All operators. -/
def all : List BinaryOp := [add, sub, mul, div, mod, lt, le, gt, ge, eq, ne, and, or]

/-- Whether the operator is a comparison. -/
def isCompare : BinaryOp → Bool
  | lt | le | gt | ge | eq | ne => true
  | _ => false

/-- Whether the operands may be exchanged. -/
def isCommutative : BinaryOp → Bool
  | add | mul | eq | ne | and | or => true
  | _ => false

/-- The operator that gives the same result with its operands exchanged. -/
def swapped? : BinaryOp → Option BinaryOp
  | lt => some gt
  | gt => some lt
  | le => some ge
  | ge => some le
  | op => if op.isCommutative then some op else none

/-- The name of an operator in module text. -/
def mnemonic : BinaryOp → String
  | add => "add"
  | sub => "sub"
  | mul => "mul"
  | div => "div"
  | mod => "mod"
  | lt => "lt"
  | le => "le"
  | gt => "gt"
  | ge => "ge"
  | eq => "eq"
  | ne => "ne"
  | and => "and"
  | or => "or"

/-- The operator with a given name. -/
def ofMnemonic? (name : String) : Option BinaryOp := all.find? fun op => op.mnemonic == name

/-- The name of an operator in diagnostics. -/
def title (op : BinaryOp) : String := op.mnemonic.capitalize

/-- The value on words. Arithmetic wraps, division goes toward zero, and division by zero has no
value. -/
def eval? (op : BinaryOp) (l r : Word) : Option Word :=
  match op with
  | add => some (l + r)
  | sub => some (l - r)
  | mul => some (l * r)
  | div => if r = 0 then none else some (l / r)
  | mod => if r = 0 then none else some (l % r)
  | lt => some (Word.ofBool (l < r))
  | le => some (Word.ofBool (l ≤ r))
  | gt => some (Word.ofBool (r < l))
  | ge => some (Word.ofBool (r ≤ l))
  | eq => some (Word.ofBool (l == r))
  | ne => some (Word.ofBool (l != r))
  | and => some (l &&& r)
  | or => some (l ||| r)

end BinaryOp

end SsaCompiler
