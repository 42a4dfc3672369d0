import SsaCompiler.Ir.Operator

/-!
# Operators and conditions of the machine

The arithmetic of the machine on words, the conditions of its comparisons and branches, and which
right operands fit into an instruction.
-/

set_option autoImplicit false

namespace SsaCompiler

/-- An arithmetic instruction. -/
inductive MachineOp
  | addu
  | subu
  | mul
  | div
  | rem
  | and
  | or
  | sll
  deriving DecidableEq, Repr, Inhabited

namespace MachineOp

/-- All arithmetic instructions. -/
def all : List MachineOp := [addu, subu, mul, div, rem, and, or, sll]

/-- The instruction for an operator that is no comparison. -/
def ofBinary? : BinaryOp → Option MachineOp
  | .add => some addu
  | .sub => some subu
  | .mul => some mul
  | .div => some div
  | .mod => some rem
  | .and => some and
  | .or => some or
  | _ => none

/-- The name of an instruction on registers. -/
def mnemonic : MachineOp → String
  | addu => "addu"
  | subu => "subu"
  | mul => "mul"
  | div => "div"
  | rem => "rem"
  | and => "and"
  | or => "or"
  | sll => "sll"

/-- The name of an instruction with a number on the right. -/
def immediateMnemonic : MachineOp → String
  | addu => "addiu"
  | and => "andi"
  | or => "ori"
  | op => op.mnemonic

/-- The instruction with a name. -/
def ofMnemonic? (name : String) : Option MachineOp := all.find? fun op => op.mnemonic == name

/-- The name of an instruction in diagnostics. -/
def title (op : MachineOp) : String := op.mnemonic.capitalize

/-- Whether a number fits the right field of an instruction. -/
def acceptsImmediate : MachineOp → Word → Bool
  | addu, c | subu, c => Word.fitsSigned16 c
  | and, c | or, c => Word.fitsUnsigned16 c
  | sll, c => 0 ≤ c.toInt && c.toInt < 32
  | mul, _ | div, _ | rem, _ => false

/-- The value on words. Arithmetic wraps, a shift takes its amount modulo the word size, and division
by zero has no value. -/
def eval? (op : MachineOp) (l r : Word) : Option Word :=
  match op with
  | addu => some (l + r)
  | subu => some (l - r)
  | mul => some (l * r)
  | div => if r = 0 then none else some (l / r)
  | rem => if r = 0 then none else some (l % r)
  | and => some (l &&& r)
  | or => some (l ||| r)
  | sll => some (l <<< r)

end MachineOp

/-- The condition of a comparison or a branch. -/
inductive Cond
  | lt
  | le
  | gt
  | ge
  | eq
  | ne
  deriving DecidableEq, Repr, Inhabited

namespace Cond

/-- All conditions. -/
def all : List Cond := [lt, le, gt, ge, eq, ne]

/-- The condition of an operator that is a comparison. -/
def ofBinary? : BinaryOp → Option Cond
  | .lt => some lt
  | .le => some le
  | .gt => some gt
  | .ge => some ge
  | .eq => some eq
  | .ne => some ne
  | _ => none

/-- The name of a condition. -/
def name : Cond → String
  | lt => "lt"
  | le => "le"
  | gt => "gt"
  | ge => "ge"
  | eq => "eq"
  | ne => "ne"

/-- The condition with a name. -/
def ofName? (name : String) : Option Cond := all.find? fun c => c.name == name

/-- The name of a condition in diagnostics. -/
def title (c : Cond) : String := c.name.capitalize

/-- The instruction that sets a register to the truth of the condition. -/
def setMnemonic (c : Cond) (immediate : Bool) : String :=
  match c with
  | lt => if immediate then "slti" else "slt"
  | c => s!"s{c.name}"

/-- The instruction that branches on the condition. -/
def branchMnemonic (c : Cond) : String := s!"b{c.name}"

/-- Whether two words satisfy the condition. -/
def holds (c : Cond) (l r : Word) : Bool :=
  match c with
  | lt => l < r
  | le => l ≤ r
  | gt => r < l
  | ge => r ≤ l
  | eq => l == r
  | ne => l != r

end Cond

end SsaCompiler
