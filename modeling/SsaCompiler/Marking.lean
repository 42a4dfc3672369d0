/-!
# Marking array cells

A search that marks the cells of an array as it goes, and does work only on unmarked cells, ends: the
number of unmarked cells falls with every mark. That fact stands here once for all searches.
-/

set_option autoImplicit false

namespace SsaCompiler

/-- Overwriting a cell that holds `free` by another value lowers the number of cells with `free`. -/
theorem count_set_lt_count {α : Type} [BEq α] [LawfulBEq α] {cells : Array α} {i : Nat} {free mark : α}
    (h : i < cells.size) (hfree : cells[i] = free) (hne : mark ≠ free) :
    (cells.set i mark h).count free < cells.count free := by
  have hpos : 0 < cells.count free := Array.count_pos_iff.2 (hfree ▸ Array.getElem_mem h)
  have hset := Array.count_set (a := mark) (b := free) h
  rw [if_pos (beq_iff_eq.2 hfree), if_neg (fun e => hne (beq_iff_eq.1 e)), Nat.add_zero] at hset
  rw [hset]
  exact Nat.sub_lt hpos Nat.one_pos

end SsaCompiler
