import SsaCompiler.Machine.RegisterSet
import Mathlib.Data.Nat.Bitwise

/-!
# Members of finite sets

What each operation on sets of numbers and sets of registers does to membership. Nothing behind this
file looks at the masks.
-/

set_option autoImplicit false

namespace SsaCompiler

namespace NatSet

/-- Removing a number removes nothing else. -/
@[simp] theorem contains_erase (s : NatSet) (i j : Nat) : (s.erase i).contains j = (s.contains j && i != j) := by
  have hbit : (NatSet.mk (1 <<< i)).contains j = (i == j) := by
    rw [contains, Nat.one_shiftLeft, Nat.testBit_two_pow, Bool.beq_eq_decide_eq]
  rw [erase, contains_diff, hbit]
  rfl

variable {s : NatSet}

variable {i : Nat}

/-- A member is no larger than the logarithm of the mask. -/
theorem le_log2_of_contains (h : s.contains i = true) : i ≤ s.mask.log2 := by
  by_contra hlt
  have hmask : s.mask < 2 ^ i := (Nat.log2_lt (Nat.ne_of_gt ?_)).1 (by omega)
  · rw [contains, Nat.testBit_lt_two_pow hmask] at h
    cases h
  · rcases Nat.eq_zero_or_pos s.mask with hzero | hpos
    · rw [contains, hzero, Nat.zero_testBit] at h
      cases h
    · exact hpos

/-- The list of a set holds its members. -/
@[simp] theorem mem_toList : i ∈ s.toList ↔ s.contains i = true := by
  rw [toList, List.mem_filter, List.mem_range]
  constructor
  · exact fun h => h.2
  · exact fun h => ⟨Nat.lt_succ_of_le (le_log2_of_contains h), h⟩

/-- The list of a set repeats nothing. -/
theorem nodup_toList (s : NatSet) : s.toList.Nodup := List.nodup_range.filter _

theorem contains_foldl_insert (l : List Nat) (s : NatSet) (j : Nat) :
    (l.foldl insert s).contains j = true ↔ s.contains j = true ∨ j ∈ l := by
  induction l generalizing s with
  | nil => simp
  | cons a l ih =>
    rw [List.foldl_cons, ih, contains_insert]
    simp only [Bool.or_eq_true, beq_iff_eq, List.mem_cons]
    constructor
    · rintro ((h | rfl) | h) <;> simp_all
    · rintro (h | rfl | h) <;> simp_all

theorem contains_foldl_erase (l : List Nat) (s : NatSet) (j : Nat) :
    (l.foldl erase s).contains j = true ↔ s.contains j = true ∧ j ∉ l := by
  induction l generalizing s with
  | nil => simp
  | cons a l ih =>
    rw [List.foldl_cons, ih, contains_erase]
    simp only [Bool.and_eq_true, bne_iff_ne, ne_eq, List.mem_cons, not_or]
    constructor
    · rintro ⟨⟨h, hne⟩, hl⟩
      exact ⟨h, fun he => hne he.symm, hl⟩
    · rintro ⟨h, hne, hl⟩
      exact ⟨⟨h, fun he => hne he.symm⟩, hl⟩

theorem contains_ofList (l : List Nat) (j : Nat) : (ofList l).contains j = true ↔ j ∈ l := by
  rw [ofList, contains_foldl_insert]
  simp

/-- A set is empty when nothing is in it. -/
theorem isEmpty_iff : s.isEmpty = true ↔ ∀ i, s.contains i = false := by
  rw [isEmpty, beq_iff_eq]
  constructor
  · intro h i
    rw [contains, h, Nat.zero_testBit]
  · intro h
    exact Nat.eq_of_testBit_eq fun i => by rw [Nat.zero_testBit]; exact h i

theorem contains_of_min? (h : s.min? = some i) : s.contains i = true :=
  List.find?_some h

theorem contains_eq_false_of_min? (h : s.min? = none) (i : Nat) : s.contains i = false := by
  by_contra hi
  have hi' : s.contains i = true := by simpa using hi
  rw [min?, List.find?_eq_none] at h
  exact h i (List.mem_range.2 (Nat.lt_succ_of_le (le_log2_of_contains hi'))) hi'

theorem contains_below (n i : Nat) : (below n).contains i = true ↔ i < n := by
  rw [contains, below, Nat.one_shiftLeft, Nat.testBit_two_pow_sub_one]
  simp

theorem contains_shift (m k i : Nat) :
    (NatSet.mk (m <<< k)).contains i = (decide (k ≤ i) && (NatSet.mk m).contains (i - k)) := by
  rw [contains, Nat.testBit_shiftLeft]
  rfl

end NatSet

variable {r : Register}

namespace Register

/-- A register is known by its number. -/
theorem toNat_inj {q : Register} : r.toNat = q.toNat ↔ r = q := by
  constructor
  · intro h
    cases r
    cases q
    exact congrArg Register.mk (Fin.ext h)
  · exact fun h => h ▸ rfl

/-- All registers are listed. -/
theorem mem_all (r : Register) : r ∈ all := List.mem_map.2 ⟨r.index, List.mem_finRange _, rfl⟩

/-- The register with the number of a register. -/
@[simp] theorem ofNat?_toNat (r : Register) : ofNat? r.toNat = some r := by
  have h : r.toNat < 32 := r.index.isLt
  rw [ofNat?, dif_pos h]
  rfl

/-- Numbers below 32 are those of registers. -/
theorem ofNat?_eq_some_iff {n : Nat} : ofNat? n = some r ↔ n = r.toNat := by
  constructor
  · intro h
    unfold ofNat? at h
    split at h
    · cases h
      rfl
    · cases h
  · rintro rfl
    exact ofNat?_toNat r

end Register

namespace RegisterSet

theorem contains_insert (s : RegisterSet) (r q : Register) :
    (s.insert r).contains q = true ↔ s.contains q = true ∨ r = q := by
  rw [contains, insert, NatSet.contains_insert]
  simp [contains, Register.toNat_inj]

theorem contains_ofList (l : List Register) (q : Register) : (ofList l).contains q = true ↔ q ∈ l := by
  have hfold : ∀ s : RegisterSet,
      (l.foldl insert s).contains q = true ↔ s.contains q = true ∨ q ∈ l := by
    induction l with
    | nil => simp
    | cons a l ih =>
      intro s
      rw [List.foldl_cons, ih, contains_insert, List.mem_cons, or_assoc, eq_comm (a := a)]
  rw [ofList, hfold]
  simp [contains, empty]

variable {s : RegisterSet}

/-- The list of a set holds its members. -/
theorem mem_toList : r ∈ s.toList ↔ s.contains r = true := by
  simp [toList, Register.mem_all]

/-- The lowest register outside an exclusion is a member and not excluded. -/
theorem lowestOutside?_some {excluded : RegisterSet} (h : s.lowestOutside? excluded = some r) :
    s.contains r = true ∧ excluded.contains r = false := by
  constructor
  · exact mem_toList.1 (List.mem_of_find?_eq_some h)
  · simpa using List.find?_some h

/-- A nonempty set has members to count. -/
theorem size_pos (h : s.isEmpty = false) : 0 < s.size := by
  rw [isEmpty, List.isEmpty_eq_false_iff] at h
  exact List.length_pos_iff.2 h

/-- Whether all registers of a set may be allocated, as in every budget. -/
def IsGeneral (s : RegisterSet) : Prop := ∀ r, s.contains r = true → r.isGeneral = true

/-- The smaller budgets may be allocated. -/
theorem isGeneral_firstGeneral (n : Nat) : (firstGeneral n).IsGeneral := by
  intro r h
  rw [firstGeneral, contains_ofList] at h
  exact (List.mem_filter.1 (List.mem_of_mem_take h)).2

end RegisterSet

end SsaCompiler
