import SsaCompiler.Machine.Register
import SsaCompiler.NatSet

/-!
# Register sets and budgets

A register set is a set of register numbers. A budget is the set of registers that may be handed
out by the allocator.
-/

set_option autoImplicit false

namespace SsaCompiler

/-- A set of registers. -/
structure RegisterSet where
  /-- The numbers of the members. -/
  numbers : NatSet
  deriving DecidableEq, Repr, Inhabited

namespace RegisterSet

/-- The set without members. -/
def empty : RegisterSet := ⟨.empty⟩

/-- Whether a register is in the set. -/
def contains (s : RegisterSet) (r : Register) : Bool := s.numbers.contains r.toNat

/-- The set with a register added. -/
def insert (s : RegisterSet) (r : Register) : RegisterSet := ⟨s.numbers.insert r.toNat⟩

/-- The set with a register removed. -/
def erase (s : RegisterSet) (r : Register) : RegisterSet := ⟨s.numbers.erase r.toNat⟩

/-- The members of either set. -/
def union (s t : RegisterSet) : RegisterSet := ⟨s.numbers.union t.numbers⟩

/-- The set of the members of a list. -/
def ofList (l : List Register) : RegisterSet := l.foldl insert empty

/-- The members in order. -/
def toList (s : RegisterSet) : List Register := Register.all.filter s.contains

/-- The number of members. -/
def size (s : RegisterSet) : Nat := s.toList.length

/-- Whether the set has no member. -/
def isEmpty (s : RegisterSet) : Bool := s.toList.isEmpty

/-- The lowest member that is not in `excluded`. -/
def lowestOutside? (s excluded : RegisterSet) : Option Register :=
  s.toList.find? fun r => !excluded.contains r

/-- The registers that may be allocated by default. -/
def general : RegisterSet := ofList (Register.all.filter Register.isGeneral)

/-- The first `n` of the default registers, and at least one. -/
def firstGeneral (n : Nat) : RegisterSet :=
  ofList ((Register.all.filter Register.isGeneral).take (max n 1))

end RegisterSet

end SsaCompiler
