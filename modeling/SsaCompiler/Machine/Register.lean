/-!
# Registers

The 32 registers of the machine, numbered as the hardware numbers them. Lower numbers come first
wherever an order of registers matters.
-/

set_option autoImplicit false

namespace SsaCompiler

/-- A register, known by its number. -/
structure Register where
  index : Fin 32
  deriving DecidableEq, Repr, Inhabited

namespace Register

/-- The names of the registers in order. -/
def names : List String :=
  ["zero", "at", "v0", "v1", "a0", "a1", "a2", "a3", "t0", "t1", "t2", "t3", "t4", "t5", "t6",
    "t7", "s0", "s1", "s2", "s3", "s4", "s5", "s6", "s7", "t8", "t9", "k0", "k1", "gp", "sp",
    "fp", "ra"]

/-- Always zero. -/
def zero : Register := ⟨0⟩

/-- Results of functions, and the service number of a system call. -/
def v0 : Register := ⟨2⟩

/-- The first argument. -/
def a0 : Register := ⟨4⟩

/-- The first register that may be allocated. -/
def t0 : Register := ⟨8⟩

/-- The last register that may be allocated. -/
def t9 : Register := ⟨25⟩

/-- The stack pointer. -/
def sp : Register := ⟨29⟩

/-- The return address. -/
def ra : Register := ⟨31⟩

/-- The registers of the first arguments of a call. -/
def arguments : List Register := [⟨4⟩, ⟨5⟩, ⟨6⟩, ⟨7⟩]

/-- All registers in order. -/
def all : List Register := (List.finRange 32).map Register.mk

/-- The register with a number. -/
def ofNat? (n : Nat) : Option Register := if h : n < 32 then some ⟨⟨n, h⟩⟩ else none

/-- The number of a register. -/
def toNat (r : Register) : Nat := r.index.val

/-- The name of a register. -/
def name (r : Register) : String := names.getD r.toNat ""

/-- The register with a name. -/
def ofName? (name : String) : Option Register := all.find? fun r => r.name == name

/-- Whether a register may be allocated. -/
def isGeneral (r : Register) : Bool := t0.toNat ≤ r.toNat && r.toNat ≤ t9.toNat

/-- Whether a register has a fixed meaning and never takes part in liveness. -/
def isFixed (r : Register) : Bool := r == zero || r == sp

/-- A register in assembly text. -/
def text (r : Register) : String := s!"${r.name}"

end Register

end SsaCompiler
