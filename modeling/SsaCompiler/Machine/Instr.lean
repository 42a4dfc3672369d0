import SsaCompiler.Machine.Operator
import SsaCompiler.Machine.Register
import SsaCompiler.Text.Quoted

/-!
# Machine instructions

An operand is a number, a register that the machine or the calling convention prescribes, a
register that the allocator chose, or a virtual register that waits for one. Every instruction
tells which operands it defines and uses; the analyses look at nothing else.
-/

set_option autoImplicit false

namespace SsaCompiler

/-- An operand of a machine instruction. -/
inductive Operand
  /-- A prescribed register. -/
  | fixed (r : Register)
  /-- A register chosen by the allocator. -/
  | allocated (r : Register)
  /-- A virtual register. -/
  | virtual (n : Nat)
  | immediate (c : Word)
  deriving DecidableEq, Repr, Inhabited

namespace Operand

/-- The register that is always zero. -/
def zero : Operand := fixed .zero

/-- The stack pointer. -/
def sp : Operand := fixed .sp

/-- The result register. -/
def v0 : Operand := fixed .v0

/-- The return address. -/
def ra : Operand := fixed .ra

/-- The physical register of an operand. -/
def register? : Operand → Option Register
  | fixed r | allocated r => some r
  | _ => none

/-- The number of a virtual register. -/
def virtual? : Operand → Option Nat
  | virtual n => some n
  | _ => none

/-- Whether an operand is a register of any kind. -/
def isRegister : Operand → Bool
  | immediate _ => false
  | _ => true

/-- An operand in assembly text. -/
def text : Operand → String
  | fixed r | allocated r => r.text
  | virtual n => s!"%v{n}"
  | immediate c => Word.text c

/-- An operand in diagnostics. -/
def describe : Operand → String
  | fixed r => s!"PreColored({r.name.capitalize})"
  | allocated r => s!"Allocated({r.name.capitalize})"
  | virtual n => s!"Virtual({n})"
  | immediate c => s!"Immediate({Word.text c})"

end Operand

/-- A machine instruction. -/
inductive Instr
  | binary (op : MachineOp) (dst lhs rhs : Operand)
  /-- Sets `dst` to one if the condition holds and to zero if not. -/
  | compare (cond : Cond) (dst lhs rhs : Operand)
  /-- Copies a register or loads a number. -/
  | move (dst src : Operand)
  | loadAddr (dst : Operand) (symbol : String)
  /-- Loads a word. An incoming load reads a stack parameter, so its offset depends on the size of the
  frame and is completed when the frame is. -/
  | load (dst base : Operand) (offset : Word) (incoming : Bool)
  | store (src base : Operand) (offset : Word)
  | branch (cond : Cond) (lhs rhs : Operand) (target : Nat)
  | jump (target : Nat)
  /-- Calls a label. `stackArgs` words below the stack pointer belong to the call. -/
  | call (callee : String) (argRegs stackArgs : Nat)
  | ret (usesV0 : Bool)
  | syscall
  deriving DecidableEq, Repr, Inhabited

namespace Instr

/-- The registers that a call may overwrite. -/
def callClobbers : List Register := Register.arguments ++ [.v0, .ra]

/-- The operands that an instruction writes. -/
def defs : Instr → List Operand
  | binary _ dst _ _ | compare _ dst _ _ | move dst _ | loadAddr dst _ | load dst _ _ _ => [dst]
  | call .. => callClobbers.map Operand.fixed
  | syscall => [Operand.v0]
  | store .. | branch .. | jump _ | ret _ => []

/-- The operands that an instruction reads, numbers included. -/
def sources : Instr → List Operand
  | binary _ _ lhs rhs | compare _ _ lhs rhs | branch _ lhs rhs _ => [lhs, rhs]
  | move _ src => [src]
  | load _ base _ _ => [base]
  | store src base _ => [src, base]
  | call _ argRegs _ => (Register.arguments.take argRegs).map Operand.fixed
  | ret usesV0 => if usesV0 then [Operand.ra, Operand.v0] else [Operand.ra]
  | syscall => [Operand.v0, Operand.fixed .a0]
  | loadAddr .. | jump _ => []

/-- The registers that an instruction reads. -/
def uses (i : Instr) : List Operand := i.sources.filter Operand.isRegister

/-- The registers that an instruction writes or reads. -/
def mentions (i : Instr) : List Operand := i.defs ++ i.uses

/-- The instruction with every register that it names replaced. -/
def mapRegisters (f : Operand → Operand) : Instr → Instr :=
  let apply := fun op => if op.isRegister then f op else op
  fun
  | binary op dst lhs rhs => binary op (apply dst) (apply lhs) (apply rhs)
  | compare cond dst lhs rhs => compare cond (apply dst) (apply lhs) (apply rhs)
  | move dst src => move (apply dst) (apply src)
  | loadAddr dst symbol => loadAddr (apply dst) symbol
  | load dst base offset incoming => load (apply dst) (apply base) offset incoming
  | store src base offset => store (apply src) (apply base) offset
  | branch cond lhs rhs target => branch cond (apply lhs) (apply rhs) target
  | other => other

/-- The target and source of a copy between registers. -/
def copy? : Instr → Option (Operand × Operand)
  | move dst src => if src.isRegister then some (dst, src) else none
  | _ => none

/-- Whether an instruction may leave the block. -/
def isTransfer : Instr → Bool
  | branch .. | jump _ | ret _ => true
  | _ => false

/-- The block that an instruction may go to. -/
def target? : Instr → Option Nat
  | branch _ _ _ target | jump target => some target
  | _ => none

/-- A field of an instruction in diagnostics. -/
def fields (name : String) (list : List (String × String)) : String :=
  name ++ " \x7b " ++ ", ".intercalate (list.map fun (key, value) => s!"{key}: {value}") ++ " \x7d"

/-- An instruction in diagnostics. -/
def describe : Instr → String
  | binary op dst lhs rhs =>
    fields "Binary" [("op", op.title), ("dst", dst.describe), ("lhs", lhs.describe),
      ("rhs", rhs.describe)]
  | compare cond dst lhs rhs =>
    fields "Compare" [("cond", cond.title), ("dst", dst.describe), ("lhs", lhs.describe),
      ("rhs", rhs.describe)]
  | move dst src => fields "Move" [("dst", dst.describe), ("src", src.describe)]
  | loadAddr dst symbol =>
    fields "LoadAddr" [("dst", dst.describe), ("symbol", Quoted.quote symbol)]
  | load dst base offset _ =>
    fields "Load" [("dst", dst.describe), ("base", base.describe), ("offset", Word.text offset)]
  | store src base offset =>
    fields "Store" [("src", src.describe), ("base", base.describe), ("offset", Word.text offset)]
  | branch cond lhs rhs target =>
    fields "Branch" [("cond", cond.title), ("lhs", lhs.describe), ("rhs", rhs.describe),
      ("target", s!"MBlockId({target})")]
  | jump target => fields "Jump" [("target", s!"MBlockId({target})")]
  | call callee argRegs stackArgs =>
    fields "Call" [("callee", Quoted.quote callee), ("arg_regs", toString argRegs),
      ("stack_args", toString stackArgs)]
  | ret usesV0 => fields "Return" [("uses_v0", toString usesV0)]
  | syscall => "Syscall"

end Instr

end SsaCompiler
