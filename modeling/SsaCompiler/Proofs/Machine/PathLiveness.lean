import SsaCompiler.Machine.Interference
import SsaCompiler.Proofs.Graph.Reachability
import SsaCompiler.Proofs.Machine.Semantics
import SsaCompiler.Proofs.NatSet
import Mathlib.Data.List.Basic

/-!
# Liveness along paths

A node is live at a place when some path of the control flow from there reads it before writing it.
The main statement is `contains_of_liveFrom`: the computed sets hold every node that is live in this
sense.

Blocks are taken as units by the computation although control may leave them in the middle. That is
sound as long as what a block writes behind a transfer is live at the start of no block, which is
what `TailLocal` says. It holds when nothing but transfers stands behind a transfer, and the loads
of spilled registers keep it.
-/

set_option autoImplicit false

namespace SsaCompiler

variable {i : Instr} {mf : MachineFunction} {b : Nat}

namespace MachineFunction

/-- Some path from a place, given by the instructions that come next in its block, reads a node before
writing it. -/
inductive LiveFrom (mf : MachineFunction) (budget : RegisterSet) (x : Nat) : List Instr → Prop
  | use {i : Instr} {rest : List Instr} : x ∈ i.useNodes budget → LiveFrom mf budget x (i :: rest)
  | pass {i : Instr} {rest : List Instr} : i.fallsThrough = true → x ∉ i.defNodes budget →
      LiveFrom mf budget x rest → LiveFrom mf budget x (i :: rest)
  | jump {i : Instr} {rest : List Instr} {b : Nat} : i.target? = some b → x ∉ i.defNodes budget →
      LiveFrom mf budget x (mf.instsOf b) → LiveFrom mf budget x (i :: rest)

/-- Nothing but transfers stands behind a transfer. -/
def TransfersLast (mf : MachineFunction) : Prop :=
  ∀ b pre i rest, mf.instsOf b = pre ++ i :: rest → i.isTransfer = true →
    ∀ j ∈ rest, j.isTransfer = true

/-- A function is linked if it has its first block and its transfers go to its blocks. -/
structure Linked (mf : MachineFunction) : Prop where
  nonempty : 0 < mf.blocks.size
  targets : ∀ b, ∀ i ∈ mf.instsOf b, ∀ t, i.target? = some t → t < mf.blocks.size

/-- Every block has an exit, an instruction that control does not pass. So control falls through from no block to
the next one. -/
def HasExits (mf : MachineFunction) : Prop :=
  ∀ b < mf.blocks.size, ∃ i ∈ mf.instsOf b, i.fallsThrough = false

/-- Exits are found by looking at each block. -/
instance (mf : MachineFunction) : Decidable mf.HasExits :=
  inferInstanceAs (Decidable (∀ b < mf.blocks.size, ∃ i ∈ mf.instsOf b, i.fallsThrough = false))

/-- Every virtual register is written before it is read on every path from the first block. -/
def WritesBeforeReads (mf : MachineFunction) (budget : RegisterSet) : Prop :=
  ∀ n, ¬ mf.LiveFrom budget (Node.firstVirtual + n) (mf.instsOf 0)

/-- What is written behind a transfer is live at the start of no block. -/
def TailLocal (mf : MachineFunction) (budget : RegisterSet) : Prop :=
  ∀ b pre i rest, mf.instsOf b = pre ++ i :: rest → i.isTransfer = true →
    ∀ j ∈ rest, ∀ x ∈ j.defNodes budget, ∀ t, ¬ mf.LiveFrom budget x (mf.instsOf t)

/-- Transfers write nothing. -/
theorem defs_of_isTransfer (h : i.isTransfer = true) : i.defs = [] := by
  cases i <;> first | rfl | cases h

/-- An instruction with a target is a transfer. -/
theorem isTransfer_of_target (h : i.target? = some b) : i.isTransfer = true := by
  cases i <;> first | rfl | cases h

/-- Where only transfers follow transfers, nothing is written behind them. -/
theorem TransfersLast.tailLocal (h : mf.TransfersLast) (budget : RegisterSet) : mf.TailLocal budget := by
  intro b pre i rest hb hi j hj x hx
  rw [Instr.defNodes, defs_of_isTransfer (h b pre i rest hb hi j hj)] at hx
  cases hx

/-- A block with instructions is one of the function. -/
theorem lt_size_of_instsOf (h : mf.instsOf b ≠ []) : b < mf.blocks.size := by
  by_contra hb
  apply h
  rw [instsOf, block, Array.getD_eq_getD_getElem?, Array.getElem?_eq_none (by omega)]
  rfl

/-- Only transfers stand behind transfers if that is so in every block of the function. -/
theorem TransfersLast.of_pairwise
    (h : ∀ b < mf.blocks.size, (mf.instsOf b).Pairwise fun i j => i.isTransfer = true → j.isTransfer = true) :
    mf.TransfersLast := by
  intro b pre i rest hb hi j hj
  have hpairs := h b (lt_size_of_instsOf (by simp [hb]))
  rw [hb, List.pairwise_append, List.pairwise_cons] at hpairs
  exact hpairs.2.1.1 j hj hi

/-- The record of a block of the function. -/
theorem block_eq_getElem (h : b < mf.blocks.size) : mf.block b = mf.blocks[b] := by
  rw [block, Array.getD_eq_getD_getElem?, Array.getElem?_eq_getElem h]
  rfl

/-- The instructions of blocks are the placed ones. -/
theorem mem_placedInsts : i ∈ mf.placedInsts ↔ ∃ b, i ∈ mf.instsOf b := by
  rw [placedInsts, List.mem_flatMap]
  constructor
  · rintro ⟨d, hd, hi⟩
    obtain ⟨b, hb, rfl⟩ := Array.mem_iff_getElem.1 (Array.mem_toList_iff.1 hd)
    exact ⟨b, by rw [instsOf, block_eq_getElem hb]; exact hi⟩
  · rintro ⟨b, hi⟩
    have hb : b < mf.blocks.size := lt_size_of_instsOf (List.ne_nil_of_mem hi)
    rw [instsOf, block_eq_getElem hb] at hi
    exact ⟨mf.blocks[b], Array.mem_toList_iff.2 (Array.getElem_mem hb), hi⟩

/-- Collecting without repetition keeps the elements. -/
theorem mem_foldl_collect (l seen : List Nat) (t : Nat) :
    t ∈ l.foldl (fun seen t => if seen.contains t then seen else seen ++ [t]) seen ↔
      t ∈ seen ∨ t ∈ l := by
  induction l generalizing seen with
  | nil => simp
  | cons a l ih =>
    rw [List.foldl_cons, ih, List.mem_cons]
    by_cases ha : a ∈ seen
    · rw [if_pos (by simpa using ha)]
      constructor
      · rintro (h | h)
        · exact .inl h
        · exact .inr (.inr h)
      · rintro (h | rfl | h)
        · exact .inl h
        · exact .inl ha
        · exact .inr h
    · rw [if_neg (by simpa using ha), List.mem_append, List.mem_singleton, or_assoc]

/-- The successors of a block are the targets of its instructions. -/
theorem mem_successors {t : Nat} : t ∈ mf.successors b ↔ ∃ i ∈ mf.instsOf b, i.target? = some t := by
  rw [successors, mem_foldl_collect, List.mem_filterMap]
  simp

/-- The successors of the blocks of a linked function are blocks of it. -/
theorem Linked.lt_of_mem_successors (h : mf.Linked) {t : Nat} (ht : t ∈ mf.successors b) : t < mf.blocks.size := by
  obtain ⟨i, hi, htarget⟩ := mem_successors.1 ht
  exact h.targets b i hi t htarget

/-- A function is linked if the targets of the placed instructions are blocks. -/
theorem linked_iff : mf.Linked ↔
    0 < mf.blocks.size ∧ ∀ i ∈ mf.placedInsts, ∀ t ∈ i.target?, t < mf.blocks.size := by
  constructor
  · intro h
    refine ⟨h.nonempty, fun i hi t ht => ?_⟩
    obtain ⟨b, hb⟩ := mem_placedInsts.1 hi
    exact h.targets b i hb t ht
  · rintro ⟨hnonempty, htargets⟩
    exact ⟨hnonempty, fun b i hi => htargets i (mem_placedInsts.2 ⟨b, hi⟩)⟩

/-- Whether a function is linked is found by looking at its instructions. -/
instance (mf : MachineFunction) : Decidable mf.Linked :=
  decidable_of_iff _ linked_iff.symm

end MachineFunction

/-! ## The live sets inside a block -/

namespace Liveness

open MachineFunction

/-- The nodes live before an instruction, given those live behind it. -/
def before (budget : RegisterSet) (i : Instr) (live : NatSet) : NatSet :=
  let live := match Interference.copyNodes? budget i with
    | some (_, s) => live.erase s
    | none => live
  (i.useNodes budget).foldl NatSet.insert
    ((i.defNodes budget).foldl NatSet.erase ((i.defNodes budget).foldl NatSet.insert live))

variable {effects : Array BlockEffect} {code : List Instr} {l : Liveness} {x : Nat} {out : NatSet}
variable {budget : RegisterSet}

theorem mem_useNodes_of_copyNodes {d s : Nat} (h : Interference.copyNodes? budget i = some (d, s)) :
    i.defNodes budget = [d] ∧ i.useNodes budget = [s] := by
  cases i with
  | move dst src =>
    simp only [Interference.copyNodes?, Instr.copy?, Option.bind_eq_bind, Option.pure_def] at h
    by_cases hsrc : src.isRegister
    · rw [if_pos hsrc, Option.bind_some] at h
      obtain ⟨d', hd', h⟩ := Option.bind_eq_some_iff.1 h
      obtain ⟨s', hs', h⟩ := Option.bind_eq_some_iff.1 h
      cases h
      simp [Instr.defNodes, Instr.useNodes, Instr.defs, Instr.uses, Instr.sources, hsrc, hd', hs']
    · rw [if_neg hsrc] at h
      cases h
  | _ => cases h

/-- A node is live before an instruction when the instruction reads it, or when it is live behind the
instruction and not written. -/
theorem contains_before {live : NatSet} : (before budget i live).contains x = true ↔
      x ∈ i.useNodes budget ∨ (live.contains x = true ∧ x ∉ i.defNodes budget) := by
  unfold before
  rw [NatSet.contains_foldl_insert, NatSet.contains_foldl_erase, NatSet.contains_foldl_insert]
  cases hcopy : Interference.copyNodes? budget i with
  | none => tauto
  | some p =>
    obtain ⟨d, s⟩ := p
    obtain ⟨-, huse⟩ := mem_useNodes_of_copyNodes hcopy
    simp only [NatSet.contains_erase, Bool.and_eq_true, bne_iff_ne, ne_eq, huse, List.mem_singleton]
    constructor
    · rintro (⟨h | h, hd⟩ | h)
      · exact .inr ⟨h.1, hd⟩
      · exact absurd h hd
      · exact .inl h
    · rintro (h | ⟨h, hd⟩)
      · exact .inr h
      · by_cases hx : x = s
        · exact .inr hx
        · exact .inl ⟨.inl ⟨h, fun he => hx he.symm⟩, hd⟩

/-- The nodes live before instructions in order, given those live behind them. -/
def beforeAll (budget : RegisterSet) (code : List Instr) (out : NatSet) : NatSet :=
  code.foldr (before budget) out

/-- A node that is live behind code and not written by it is live before it. -/
theorem contains_beforeAll_of_untouched (hout : out.contains x = true) (hcode : ∀ i ∈ code, x ∉ i.defNodes budget) :
    (beforeAll budget code out).contains x = true := by
  induction code with
  | nil => exact hout
  | cons i rest ih =>
    have hrest := ih fun j hj => hcode j (List.mem_cons_of_mem _ hj)
    exact contains_before.2 (.inr ⟨hrest, hcode i List.mem_cons_self⟩)

/-- What is live before code is read by it before it writes it, or passes through it. -/
theorem contains_beforeAll : (beforeAll budget code out).contains x = true ↔
      (beforeAll budget code .empty).contains x = true ∨
        (out.contains x = true ∧ ∀ i ∈ code, x ∉ i.defNodes budget) := by
  induction code with
  | nil => simp [beforeAll]
  | cons i rest ih =>
    have hcons : ∀ o, beforeAll budget (i :: rest) o = before budget i (beforeAll budget rest o) :=
      fun _ => rfl
    rw [hcons, hcons, contains_before, contains_before, ih]
    simp only [List.forall_mem_cons]
    tauto

/-! ## What a block reads and writes -/

/-- The uses of an effect with one more instruction. -/
theorem contains_uses_extend {e : BlockEffect} : (e.extend budget i).uses.contains x = true ↔
      e.uses.contains x = true ∨ (x ∈ i.useNodes budget ∧ e.defs.contains x = false) := by
  have hfold : ∀ (l : List Nat) (s : NatSet),
      (l.foldl (fun s n => if e.defs.contains n then s else s.insert n) s).contains x = true ↔
        s.contains x = true ∨ (x ∈ l ∧ e.defs.contains x = false) := by
    intro l
    induction l with
    | nil => simp
    | cons a l ih =>
      intro s
      rw [List.foldl_cons, ih, List.mem_cons]
      by_cases ha : e.defs.contains a = true
      · rw [if_pos ha]
        constructor
        · rintro (h | ⟨h, hx⟩)
          · exact .inl h
          · exact .inr ⟨.inr h, hx⟩
        · rintro (h | ⟨rfl | h, hx⟩)
          · exact .inl h
          · rw [ha] at hx
            cases hx
          · exact .inr ⟨h, hx⟩
      · rw [if_neg ha, NatSet.contains_insert, Bool.or_eq_true, beq_iff_eq]
        constructor
        · rintro ((h | rfl) | ⟨h, hx⟩)
          · exact .inl h
          · exact .inr ⟨.inl rfl, by simpa using ha⟩
          · exact .inr ⟨.inr h, hx⟩
        · rintro (h | ⟨rfl | h, hx⟩)
          · exact .inl (.inl h)
          · exact .inl (.inr rfl)
          · exact .inr ⟨h, hx⟩
  exact hfold _ _

/-- The writes of an effect with more instructions. -/
theorem contains_defs_foldl (code : List Instr) (e : BlockEffect) :
    (code.foldl (BlockEffect.extend budget) e).defs.contains x = true ↔
      e.defs.contains x = true ∨ ∃ i ∈ code, x ∈ i.defNodes budget := by
  induction code generalizing e with
  | nil => simp
  | cons i rest ih =>
    rw [List.foldl_cons, ih, BlockEffect.extend, NatSet.contains_foldl_insert]
    simp [or_assoc]

theorem contains_uses_foldl (code : List Instr) (e : BlockEffect) :
    (code.foldl (BlockEffect.extend budget) e).uses.contains x = true ↔
      e.uses.contains x = true ∨
        (e.defs.contains x = false ∧ (beforeAll budget code .empty).contains x = true) := by
  induction code generalizing e with
  | nil => simp [beforeAll]
  | cons i rest ih =>
    have hcons : beforeAll budget (i :: rest) .empty = before budget i (beforeAll budget rest .empty) :=
      rfl
    have hdefs : (e.extend budget i).defs.contains x = false ↔
        e.defs.contains x = false ∧ x ∉ i.defNodes budget := by
      rw [← Bool.not_eq_true, BlockEffect.extend, NatSet.contains_foldl_insert, not_or, Bool.not_eq_true]
    rw [List.foldl_cons, ih, contains_uses_extend, hcons, contains_before, hdefs]
    tauto

/-- The live nodes before a whole block, by what the block reads and writes. -/
theorem contains_beforeAll_ofInsts : (beforeAll budget code out).contains x = true ↔
      (BlockEffect.ofInsts budget code).uses.contains x = true ∨
        (out.contains x = true ∧ (BlockEffect.ofInsts budget code).defs.contains x = false) := by
  have hdefs : (BlockEffect.ofInsts budget code).defs.contains x = false ↔
      ∀ i ∈ code, x ∉ i.defNodes budget := by
    rw [← Bool.not_eq_true, BlockEffect.ofInsts, contains_defs_foldl]
    simp
  rw [contains_beforeAll, hdefs, BlockEffect.ofInsts, contains_uses_foldl]
  simp

/-! ## The settled sets -/

/-- The live nodes at the end of a block, from those at the start of its successors. -/
def outOf (mf : MachineFunction) (s : Sets) (b : Nat) : NatSet :=
  (mf.successors b).foldl (fun out succ => out.union (s.liveIn.getD succ .empty)) NatSet.empty

theorem contains_outOf {s : Sets} : (outOf mf s b).contains x = true ↔
      ∃ t ∈ mf.successors b, (s.liveIn.getD t .empty).contains x = true := by
  have hfold : ∀ (l : List Nat) (o : NatSet),
      (l.foldl (fun out succ => out.union (s.liveIn.getD succ .empty)) o).contains x = true ↔
        o.contains x = true ∨ ∃ t ∈ l, (s.liveIn.getD t .empty).contains x = true := by
    intro l
    induction l with
    | nil => simp
    | cons a l ih =>
      intro o
      rw [List.foldl_cons, ih, NatSet.contains_union]
      simp [or_assoc]
  rw [outOf, hfold]
  simp

/-- The sets of a block agree with those of its successors. -/
structure Settled (mf : MachineFunction) (effects : Array BlockEffect) (s : Sets) (b : Nat) : Prop where
  out : outOf mf s b = s.liveOut.getD b .empty
  inn : (effects.getD b {}).uses.union ((outOf mf s b).diff (effects.getD b {}).defs) =
    s.liveIn.getD b .empty

/-- The work on one block. -/
theorem updateBlock_def (mf : MachineFunction) (effects : Array BlockEffect) (s : Sets) (b : Nat) :
    updateBlock mf effects s b =
      let inn := (effects.getD b {}).uses.union ((outOf mf s b).diff (effects.getD b {}).defs)
      if outOf mf s b = s.liveOut.getD b .empty && inn = s.liveIn.getD b .empty then s
      else
        { liveIn := s.liveIn.setIfInBounds b inn
          liveOut := s.liveOut.setIfInBounds b (outOf mf s b)
          changed := true } := rfl

/-- Work on one block leaves settled sets alone and otherwise reports a change. -/
theorem updateBlock_eq (mf : MachineFunction) (effects : Array BlockEffect) (s : Sets) (b : Nat) :
    (Settled mf effects s b ∧ updateBlock mf effects s b = s) ∨
      (updateBlock mf effects s b).changed = true := by
  rw [updateBlock_def]
  dsimp only
  split
  · rename_i h
    simp only [Bool.and_eq_true, decide_eq_true_eq] at h
    exact .inl ⟨⟨h.1, h.2⟩, rfl⟩
  · exact .inr rfl

/-- A change is never forgotten. -/
theorem changed_foldl (order : List Nat) (s : Sets) (h : s.changed = true) :
    (order.foldl (updateBlock mf effects) s).changed = true := by
  induction order generalizing s with
  | nil => exact h
  | cons b order ih =>
    apply ih
    rcases updateBlock_eq mf effects s b with ⟨-, heq⟩ | hc
    · rw [heq, h]
    · exact hc

/-- A round without a change leaves the sets alone, and all its blocks are settled. -/
theorem foldl_updateBlock (order : List Nat) (s : Sets) (h : (order.foldl (updateBlock mf effects) s).changed = false) :
    order.foldl (updateBlock mf effects) s = s ∧ ∀ b ∈ order, Settled mf effects s b := by
  induction order generalizing s with
  | nil => exact ⟨rfl, by simp⟩
  | cons b order ih =>
    rw [List.foldl_cons] at h ⊢
    rcases updateBlock_eq mf effects s b with ⟨hb, heq⟩ | hc
    · rw [heq] at h ⊢
      obtain ⟨hfold, hrest⟩ := ih s h
      exact ⟨hfold, List.forall_mem_cons.2 ⟨hb, hrest⟩⟩
    · rw [changed_foldl order _ hc] at h
      cases h

/-- Every member of the sets comes from a use. -/
def Grounded (effects : Array BlockEffect) (s : Sets) : Prop :=
  ∀ b x, (s.liveIn.getD b .empty).contains x = true ∨ (s.liveOut.getD b .empty).contains x = true →
    ∃ a, (effects.getD a {}).uses.contains x = true

/-- Reading a cell of an array after writing one. -/
theorem getD_setIfInBounds {α : Type} (a : Array α) (i j : Nat) (v d : α) :
    (a.setIfInBounds i v).getD j d = if i = j ∧ i < a.size then v else a.getD j d := by
  simp only [Array.getD_eq_getD_getElem?, Array.getElem?_setIfInBounds]
  by_cases hij : i = j
  · subst hij
    by_cases hi : i < a.size
    · simp [hi]
    · simp [hi]
  · simp [hij]

/-- Work on one block adds no member without a use. -/
theorem Grounded.updateBlock {mf : MachineFunction} {effects : Array BlockEffect} {s : Sets}
    (h : Grounded effects s) (b : Nat) : Grounded effects (updateBlock mf effects s b) := by
  have hout : ∀ x, (outOf mf s b).contains x = true →
      ∃ a, (effects.getD a {}).uses.contains x = true := by
    intro x hx
    obtain ⟨t, -, ht⟩ := contains_outOf.1 hx
    exact h t x (.inl ht)
  rw [updateBlock_def]
  dsimp only
  split
  · exact h
  · intro c x hx
    simp only [getD_setIfInBounds] at hx
    rcases hx with hx | hx
    · split at hx
      · rw [NatSet.contains_union, NatSet.contains_diff, Bool.or_eq_true, Bool.and_eq_true] at hx
        rcases hx with hx | hx
        · exact ⟨b, hx⟩
        · exact hout x hx.1
      · exact h c x (.inl hx)
    · split at hx
      · exact hout x hx
      · exact h c x (.inr hx)

/-- A round adds no member without a use. -/
theorem Grounded.foldl {effects : Array BlockEffect} {s : Sets} (h : Grounded effects s)
    (mf : MachineFunction) (order : List Nat) : Grounded effects (order.foldl (Liveness.updateBlock mf effects) s) := by
  induction order generalizing s with
  | nil => exact h
  | cons b order ih => exact ih (h.updateBlock b)

/-- The sets at the end: all blocks of the order are settled, within the limit of rounds, and what a round keeps holds
of them. -/
theorem settle_some {order : List Nat} {P : Sets → Prop} (hstart : ∀ s, P s → P { s with changed := false })
    (hround : ∀ s, P s → P (order.foldl (updateBlock mf effects) s)) :
    ∀ {limit done : Nat} {s s' : Sets} {rounds : Nat}, P s → settle mf effects order limit done s = some (s', rounds) →
      rounds ≤ done + limit ∧ (∀ b ∈ order, Settled mf effects s' b) ∧ P s' := by
  intro limit
  induction limit with
  | zero => intro done s s' rounds _ h; cases h
  | succ limit ih =>
    intro done s s' rounds hs h
    have hnext := hround _ (hstart s hs)
    rw [settle] at h
    split at h
    · obtain ⟨hrounds, hrest⟩ := ih hnext h
      exact ⟨by omega, hrest⟩
    · rename_i hchanged
      obtain ⟨hfold, hsettled⟩ := foldl_updateBlock order _ (by simpa using hchanged)
      cases h
      refine ⟨by omega, ?_, hnext⟩
      rw [hfold]
      exact hsettled

/-! ## The computed sets -/

/-- What the computation promises of its sets. -/
structure Sound (mf : MachineFunction) (budget : RegisterSet) (l : Liveness) : Prop where
  /-- The end of a block sees the start of every successor. -/
  out : ∀ b < mf.blocks.size, ∀ x, ∀ t ∈ mf.successors b, (l.liveIn.getD t .empty).contains x = true →
    (l.liveOut.getD b .empty).contains x = true
  /-- The start of a block follows from its end and its instructions. -/
  inn : ∀ b < mf.blocks.size, ∀ x, (l.liveIn.getD b .empty).contains x = true ↔
    (beforeAll budget (mf.instsOf b) (l.liveOut.getD b .empty)).contains x = true
  /-- What is live somewhere is read somewhere. -/
  used : ∀ b x, (l.liveOut.getD b .empty).contains x = true →
    ∃ i ∈ mf.placedInsts, x ∈ i.useNodes budget

/-- The effects of the blocks, by block. -/
theorem getD_effects (b : Nat) : (mf.blocks.map fun d => BlockEffect.ofInsts budget d.insts).getD b {} =
      BlockEffect.ofInsts budget (mf.instsOf b) := by
  rw [MachineFunction.instsOf, MachineFunction.block, Array.getD_eq_getD_getElem?,
    Array.getD_eq_getD_getElem?, Array.getElem?_map]
  cases mf.blocks[b]? <;> rfl

/-- A node that a block reads first is read by one of its instructions. -/
theorem exists_use_of_uses (h : (BlockEffect.ofInsts budget code).uses.contains x = true) :
    ∃ i ∈ code, x ∈ i.useNodes budget := by
  rw [BlockEffect.ofInsts, contains_uses_foldl] at h
  have hbefore : (beforeAll budget code .empty).contains x = true := by simpa using h
  clear h
  induction code with
  | nil => simp [beforeAll] at hbefore
  | cons i rest ih =>
    rcases contains_before.1 hbefore with hx | ⟨hx, -⟩
    · exact ⟨i, List.mem_cons_self, hx⟩
    · obtain ⟨j, hj, hxj⟩ := ih hx
      exact ⟨j, List.mem_cons_of_mem _ hj, hxj⟩

/-- The computation ends with sets that are settled and hold nothing without a use. -/
theorem settled_of_ofFunction (h : ofFunction mf budget = .ok l) :
    ∃ s : Sets, l.liveIn = s.liveIn ∧ l.liveOut = s.liveOut ∧
      (∀ b < mf.blocks.size, Settled mf (mf.blocks.map fun b => BlockEffect.ofInsts budget b.insts) s b) ∧
      Grounded (mf.blocks.map fun b => BlockEffect.ofInsts budget b.insts) s := by
  simp only [ofFunction, bind, Except.bind] at h
  cases hrpo : ReversePostorder.ofCfg mf.cfg with
  | error e => simp [hrpo] at h
  | ok r =>
    simp only [hrpo] at h
    set effects := mf.blocks.map fun b => BlockEffect.ofInsts budget b.insts with heffects
    have hground : Grounded effects
        { liveIn := effects.map (·.uses), liveOut := Array.replicate mf.blocks.size .empty,
          changed := false } := by
      intro b x hx
      rcases hx with hx | hx
      · refine ⟨b, ?_⟩
        rw [Array.getD_eq_getD_getElem?, Array.getElem?_map] at hx
        rw [Array.getD_eq_getD_getElem?]
        cases hb : effects[b]? with
        | none => simp [hb] at hx
        | some e => simpa [hb] using hx
      · rw [Array.getD_eq_getD_getElem?, Array.getElem?_replicate] at hx
        split at hx <;> simp at hx
    split at h
    · cases h
    · rename_i s rounds hsettle
      cases h
      obtain ⟨-, hsettled, hgr⟩ := settle_some (P := Grounded effects) (fun _ h => h) (fun _ h => h.foldl mf _)
        hground hsettle
      refine ⟨s, rfl, rfl, fun b hb => hsettled b ?_, hgr⟩
      rw [List.mem_append]
      by_cases hreach : r.isReachable b = true
      · exact .inl (List.mem_reverse.2 (ReversePostorder.mem_order_of_isReachable hrpo hreach))
      · refine .inr (List.mem_filter.2 ⟨List.mem_range.2 hb, ?_⟩)
        simpa using hreach

/-- The computation keeps its promise. -/
theorem sound_of_ofFunction (h : ofFunction mf budget = .ok l) : Sound mf budget l := by
  obtain ⟨s, hin, hout, hall, hgr⟩ := settled_of_ofFunction h
  refine ⟨?_, ?_, ?_⟩
  · intro b hb x t ht hx
    rw [hin] at hx
    rw [hout, ← (hall b hb).out]
    exact contains_outOf.2 ⟨t, ht, hx⟩
  · intro b hb x
    rw [hin, hout, contains_beforeAll_ofInsts, ← getD_effects, ← (hall b hb).inn, ← (hall b hb).out,
      NatSet.contains_union, NatSet.contains_diff]
    simp
  · intro b x hx
    rw [hout] at hx
    obtain ⟨a, ha⟩ := hgr b x (.inr hx)
    rw [getD_effects] at ha
    obtain ⟨i, hi, hxi⟩ := exists_use_of_uses ha
    exact ⟨i, mem_placedInsts.2 ⟨a, hi⟩, hxi⟩

/-- The nodes live at a place of a block. -/
def here (l : Liveness) (budget : RegisterSet) (b : Nat) (code : List Instr) : NatSet :=
  beforeAll budget code (l.liveOut.getD b .empty)

/-- Every node that is live along some path is in the computed sets. -/
theorem contains_of_liveFrom (hl : Sound mf budget l) (htail : mf.TailLocal budget) (h : mf.LiveFrom budget x code) :
    ∀ b pre, mf.instsOf b = pre ++ code → (l.here budget b code).contains x = true := by
  induction h with
  | use hx => exact fun b pre _ => contains_before.2 (.inl hx)
  | @pass i rest _ hdef _ ih =>
    intro b pre hb
    exact contains_before.2 (.inr ⟨ih b (pre ++ [i]) (by simpa using hb), hdef⟩)
  | @jump i rest t htarget hdef hlive ih =>
    intro b pre hb
    have ht : t < mf.blocks.size := by
      apply lt_size_of_instsOf
      intro hempty
      rw [hempty] at hlive
      cases hlive
    have hbsize : b < mf.blocks.size := lt_size_of_instsOf (by simp [hb])
    have hin : (l.liveIn.getD t .empty).contains x = true := (hl.inn t ht x).2 (ih t [] rfl)
    have hsucc : t ∈ mf.successors b := mem_successors.2 ⟨i, by simp [hb], htarget⟩
    have hout := hl.out b hbsize x t hsucc hin
    -- Nothing behind the transfer writes the node, as it is live at the start of a block.
    have hrest : ∀ j ∈ rest, x ∉ j.defNodes budget := fun j hj hxj =>
      htail b pre i rest hb (isTransfer_of_target htarget) j hj x hxj t hlive
    exact contains_before.2 (.inr ⟨contains_beforeAll_of_untouched hout hrest, hdef⟩)

/-- What is live along some path is read by some instruction. -/
theorem exists_use_of_liveFrom (h : mf.LiveFrom budget x code) (hcode : ∀ i ∈ code, i ∈ mf.placedInsts) :
    ∃ i ∈ mf.placedInsts, x ∈ i.useNodes budget := by
  induction h with
  | @use i rest hx => exact ⟨i, hcode i List.mem_cons_self, hx⟩
  | pass _ _ _ ih => exact ih fun j hj => hcode j (List.mem_cons_of_mem _ hj)
  | @jump i rest b _ _ _ ih => exact ih fun j hj => mem_placedInsts.2 ⟨b, hj⟩

end Liveness

end SsaCompiler
