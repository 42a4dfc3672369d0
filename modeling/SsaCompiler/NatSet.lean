/-!
# Finite sets of natural numbers

A set is kept as a mask: bit `i` of the mask tells whether `i` is a member. Listing a set
enumerates its members in ascending order.
-/

set_option autoImplicit false

namespace SsaCompiler

/-- A finite set of natural numbers. -/
structure NatSet where
  /-- Bit `i` is set when `i` is a member. -/
  mask : Nat
  deriving DecidableEq, Repr

namespace NatSet

/-- The set without members. -/
def empty : NatSet := ⟨0⟩

instance : Inhabited NatSet := ⟨empty⟩

/-- Membership as a Boolean. -/
def contains (s : NatSet) (i : Nat) : Bool := s.mask.testBit i

instance : Membership Nat NatSet := ⟨fun s i => s.contains i = true⟩

instance (s : NatSet) (i : Nat) : Decidable (i ∈ s) := inferInstanceAs (Decidable (s.contains i = true))

/-- The set with `i` added. -/
def insert (s : NatSet) (i : Nat) : NatSet := ⟨s.mask ||| 1 <<< i⟩

/-- The members of either set. -/
def union (s t : NatSet) : NatSet := ⟨s.mask ||| t.mask⟩

/-- The members of both sets. -/
def inter (s t : NatSet) : NatSet := ⟨s.mask &&& t.mask⟩

/-- The members of `s` that are not in `t`. -/
def diff (s t : NatSet) : NatSet := ⟨s.mask ^^^ (s.mask &&& t.mask)⟩

/-- The set with `i` removed. -/
def erase (s : NatSet) (i : Nat) : NatSet := s.diff ⟨1 <<< i⟩

/-- Whether the set has no member. -/
def isEmpty (s : NatSet) : Bool := s.mask == 0

/-- The numbers below `n`. -/
def below (n : Nat) : NatSet := ⟨1 <<< n - 1⟩

/-- The set of the members of a list. -/
def ofList (l : List Nat) : NatSet := l.foldl insert empty

/-- The members in ascending order. -/
def toList (s : NatSet) : List Nat := (List.range (s.mask.log2 + 1)).filter s.contains

/-- The number of members. -/
def size (s : NatSet) : Nat := s.toList.length

/-- The least member. -/
def min? (s : NatSet) : Option Nat := (List.range (s.mask.log2 + 1)).find? s.contains

@[simp] theorem contains_empty (i : Nat) : empty.contains i = false := by
  simp [contains, empty]

@[simp] theorem contains_insert (s : NatSet) (i j : Nat) :
    (s.insert i).contains j = (s.contains j || i == j) := by
  rw [contains, insert, Nat.testBit_or, Nat.one_shiftLeft, Nat.testBit_two_pow]
  simp [contains, Bool.beq_eq_decide_eq]

@[simp] theorem contains_union (s t : NatSet) (i : Nat) :
    (s.union t).contains i = (s.contains i || t.contains i) := Nat.testBit_or ..

@[simp] theorem contains_inter (s t : NatSet) (i : Nat) :
    (s.inter t).contains i = (s.contains i && t.contains i) := Nat.testBit_and ..

@[simp] theorem contains_diff (s t : NatSet) (i : Nat) :
    (s.diff t).contains i = (s.contains i && !t.contains i) := by
  simp only [contains, diff, Nat.testBit_xor, Nat.testBit_and]
  cases s.mask.testBit i <;> cases t.mask.testBit i <;> rfl

end NatSet

end SsaCompiler
