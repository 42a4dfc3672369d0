import SsaCompiler.Error
import SsaCompiler.NatSet

/-!
# Sets of block positions

A block set ranges over the positions below its length. Its storage comes in chunks of 64
positions, so a position past the length may still have a place: it is stored and counted, but
neither contained nor listed.
-/

set_option autoImplicit false

namespace SsaCompiler

/-- A set of positions below `len`. -/
structure BlockSet where
  len : Nat
  /-- The stored positions. -/
  stored : NatSet
  deriving DecidableEq, Repr

namespace BlockSet

/-- The number of positions that have a place in the storage. -/
def capacity (s : BlockSet) : Nat := (s.len + 63) / 64 * 64

/-- The set of length `len` without members. -/
def empty (len : Nat) : BlockSet := ⟨len, .empty⟩

/-- The set of all positions below `len`. -/
def full (len : Nat) : BlockSet := ⟨len, .below len⟩

instance : Inhabited BlockSet := ⟨empty 0⟩

/-- The set with position `i` added; a position without a place leaves the set as it is. -/
def insert (s : BlockSet) (i : Nat) : BlockSet :=
  if i < s.capacity then { s with stored := s.stored.insert i } else s

/-- Adds a position that must have a place in the storage. -/
def insertStored (s : BlockSet) (i : Nat) : Outcome BlockSet :=
  if i < s.capacity then .ok (s.insert i) else .crash

/-- Whether `i` is a position below the length that is in the set. -/
def contains (s : BlockSet) (i : Nat) : Bool := i < s.len && s.stored.contains i

/-- The positions of `s` that `t` stores too; where `t` has no place, `s` keeps its own. -/
def inter (s t : BlockSet) : BlockSet :=
  { s with stored := (s.stored.inter t.stored).union (s.stored.diff (.below t.capacity)) }

/-- The number of stored positions. -/
def count (s : BlockSet) : Nat := s.stored.size

/-- The contained positions in ascending order. -/
def toList (s : BlockSet) : List Nat := (List.range s.len).filter s.contains

end BlockSet

end SsaCompiler
