import SsaCompiler.Ir.Builtin
import SsaCompiler.Ir.Operator

/-!
# Values, instructions and blocks

A function keeps its values, instructions and blocks in arenas, and they refer to each other by
their numbers. The operands of each kind of instruction are:

* a binary operation: left, right; a branch: its condition; a jump: none;
* a return: none or the value;
* a load: base, index; a store: base, index, data; an address computation: base, index;
* a call: the arguments; an allocation: none;
* a phi: one operand per predecessor of its block; a print: one per argument piece.
-/

set_option autoImplicit false

namespace SsaCompiler

/-- The number of a value in its function. -/
abbrev ValueId := Nat

/-- The number of an instruction in its function. -/
abbrev InstId := Nat

/-- The number of a block in its function. -/
abbrev BlockId := Nat

/-- The number of a function in its module. -/
abbrev FuncId := Nat

/-- The number of a global variable in its module. -/
abbrev GlobalId := Nat

/-- The number of a string constant in its module. -/
abbrev StringId := Nat

/-- What a value stands for. -/
inductive ValueKind
  /-- The result of an instruction. -/
  | inst (inst : InstId)
  /-- A parameter by its place. -/
  | param (index : Nat)
  | const (c : Word)
  /-- The address of a global variable. -/
  | global (g : GlobalId)
  /-- The address of a string constant. -/
  | str (s : StringId)
  deriving DecidableEq, Repr, Inhabited

/-- An operand slot of an instruction. -/
structure Use where
  user : InstId
  slot : Nat
  deriving DecidableEq, Repr, Inhabited

/-- A value with the index of its uses. -/
structure ValueData where
  kind : ValueKind
  /-- A name for listings. -/
  name : Option String := none
  /-- The slots that read the value. -/
  uses : List Use := []
  /-- Whether the value may still be read. -/
  live : Bool := true
  deriving Repr, Inhabited

namespace ValueData

/-- The constant that a value is. -/
def const? (d : ValueData) : Option Word :=
  match d.kind with
  | .const c => some c
  | _ => none

end ValueData

/-- Who is called. -/
inductive Callee
  | func (f : FuncId)
  | builtin (b : Builtin)
  deriving DecidableEq, Repr, Inhabited

/-- A piece of a print format. -/
inductive PrintPiece
  /-- A fixed text. -/
  | str (s : StringId)
  /-- The next operand, as a decimal number. -/
  | arg
  deriving DecidableEq, Repr, Inhabited

/-- What an instruction does. -/
inductive InstKind
  | binary (op : BinaryOp)
  | branch (thenBlock elseBlock : BlockId)
  | jump (target : BlockId)
  | ret
  /-- The address of an element, the index scaled by a number of words. -/
  | gep (multiplier : Word)
  | load
  | store
  | call (callee : Callee)
  /-- Reserves words in the frame. -/
  | alloca (words : Nat)
  | phi
  | print (pieces : List PrintPiece)
  deriving DecidableEq, Repr, Inhabited

namespace InstKind

/-- Whether the instruction ends its block. -/
def isTerminator : InstKind → Bool
  | branch .. | jump _ | ret => true
  | _ => false

/-- Whether the instruction is a phi. -/
def isPhi : InstKind → Bool
  | phi => true
  | _ => false

/-- Whether the instruction is a conditional branch. -/
def isBranch : InstKind → Bool
  | branch .. => true
  | _ => false

/-- The blocks the instruction may continue at, the true arm first. -/
def targets : InstKind → List BlockId
  | branch t e => [t, e]
  | jump t => [t]
  | _ => []

/-- The kind with its first arm that leads to `source` leading to `target` instead. -/
def redirect? (kind : InstKind) (source target : BlockId) : Option InstKind :=
  match kind with
  | jump t => if t = source then some (jump target) else none
  | branch t e =>
    if t = source then some (branch target e)
    else if e = source then some (branch t target)
    else none
  | _ => none

end InstKind

/-- An instruction. -/
structure InstData where
  kind : InstKind
  operands : List ValueId
  result : Option ValueId
  /-- The block that lists the instruction; none while it is detached or removed. -/
  block : Option BlockId := none
  deriving Repr, Inhabited

/-- A basic block. -/
structure BlockData where
  name : String
  insts : List InstId := []
  /-- The predecessors, one per incoming edge, in the order of the phi slots. -/
  preds : List BlockId := []
  removed : Bool := false
  deriving Repr, Inhabited

end SsaCompiler
