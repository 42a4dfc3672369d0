import SsaCompiler.Ir.Builtin

/-!
# Runtime stubs

Every builtin is a stub of three instructions around a system call, appended to each program.
-/

set_option autoImplicit false

namespace SsaCompiler.Builtin

/-- The service number of a builtin's system call. -/
def serviceCode : Builtin → Nat
  | getInt => 5
  | putInt => 1
  | putCh => 11
  | putStr => 4

/-- The assembly label of a builtin. -/
def label (b : Builtin) : String := s!"rt_{b.name}"

/-- The builtin with an assembly label. -/
def ofLabel? (label : String) : Option Builtin := all.find? fun b => b.label == label

/-- The stub of a builtin. -/
def stub (b : Builtin) : String :=
  s!"{b.label}:\n  li $v0, {b.serviceCode}\n  syscall\n  jr $ra\n"

/-- All stubs. -/
def stubs : String := String.join (all.map stub)

end SsaCompiler.Builtin
