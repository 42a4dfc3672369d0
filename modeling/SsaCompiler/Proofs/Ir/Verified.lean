import SsaCompiler.Proofs.Edits
import SsaCompiler.Proofs.Ir.Strictness
import Mathlib.Data.List.Perm.Basic
import Mathlib.Data.List.Count

/-!
# Verified functions

Verification is a sequence of checks that report at the first fault, so it accepts a function exactly
when every check passes. What the checks say of the predecessor lists is that they have the same
entries as the edges, each as often (`verifyPreds_iff`). A sound function that is accepted is regular, and a regular
one whose operands are live is accepted.
-/

set_option autoImplicit false

namespace SsaCompiler

namespace Function

variable {f : Function}

/-! ## The checks -/

variable {b : BlockId} {i : InstId}

/-- The check of an operand. -/
theorem verifyOperand_iff {slot : Nat} {v : ValueId} :
    f.verifyOperand i slot v = .ok () ↔ (f.value v).live = true ∧ (f.uses v).count ⟨i, slot⟩ = 1 := by
  unfold verifyOperand
  dsimp only
  rw [Outcome.guard_eq_ok, Outcome.report_eq_ok, Bool.not_eq_true', Bool.not_eq_false, ne_eq, not_not]
  rfl

/-- What is checked of an instruction at a place of a block. -/
structure CheckedInst (f : Function) (b : BlockId) (pos : Nat) (i : InstId) : Prop where
  last : (f.kind i).isTerminator = true → pos + 1 = (f.instsOf b).length
  phis_before : (f.kind i).isPhi = true → ∀ j ∈ (f.instsOf b).take pos, (f.kind j).isPhi = true
  slots : (f.kind i).isPhi = true → (f.operands i).length = (f.preds b).length
  block : f.blockOf? i = some b
  operands : ∀ v slot, (v, slot) ∈ (f.operands i).zipIdx →
    (f.value v).live = true ∧ (f.uses v).count ⟨i, slot⟩ = 1
  users : ∀ r, f.result? i = some r → ∀ u ∈ f.uses r, (f.blockOf? u.user).isSome = true

/-- The check of the operands and of the users of an instruction. -/
theorem verifyUses_iff : (do
      (f.operands i).zipIdx.forM fun x => f.verifyOperand i x.2 x.1
      match f.result? i with
        | some r =>
          match (f.uses r).find? fun u => (f.blockOf? u.user).isNone with
          | some u => Outcome.report (.danglingUse f.name (f.valueLabel r) s!"detached inst {u.user}")
          | none => pure ()
        | none => pure ()) = Except.ok () ↔
      (∀ v slot, (v, slot) ∈ (f.operands i).zipIdx →
        (f.value v).live = true ∧ (f.uses v).count ⟨i, slot⟩ = 1) ∧
      ∀ r, f.result? i = some r → ∀ u ∈ f.uses r, (f.blockOf? u.user).isSome = true := by
  have hoperands : ((f.operands i).zipIdx.forM fun x => f.verifyOperand i x.2 x.1) = .ok ⟨⟩ ↔
      ∀ v slot, (v, slot) ∈ (f.operands i).zipIdx →
        (f.value v).live = true ∧ (f.uses v).count ⟨i, slot⟩ = 1 := by
    rw [Outcome.forM_eq_ok]
    exact ⟨fun h v slot hmem => verifyOperand_iff.1 (h (v, slot) hmem),
      fun h e he => verifyOperand_iff.2 (h e.1 e.2 he)⟩
  rw [Outcome.bind_eq_ok]
  constructor
  · rintro ⟨⟨⟩, hops, hresult⟩
    refine ⟨hoperands.1 hops, fun r hr u hu => ?_⟩
    rw [hr] at hresult
    dsimp only at hresult
    split at hresult
    · cases hresult
    · rename_i hnone
      have hplaced := List.find?_eq_none.1 hnone u hu
      cases hblock : f.blockOf? u.user with
      | none => exact absurd (by rw [hblock]; rfl) hplaced
      | some c => rfl
  · rintro ⟨hops, husers⟩
    refine ⟨⟨⟩, hoperands.2 hops, ?_⟩
    cases hr : f.result? i with
    | none => rfl
    | some r =>
      have hnone : ((f.uses r).find? fun u => (f.blockOf? u.user).isNone) = none := by
        rw [List.find?_eq_none]
        intro u hu hnone
        rw [Option.isNone_iff_eq_none] at hnone
        have hsome := husers r hr u hu
        rw [hnone] at hsome
        cases hsome
      dsimp only
      rw [hnone]
      rfl

variable {pos : Nat}

/-- The check of an instruction. -/
theorem verifyInst_iff : f.verifyInst b pos i = .ok () ↔ f.CheckedInst b pos i := by
  have hterm : ¬ ((f.kind i).isTerminator && decide (pos + 1 ≠ (f.instsOf b).length)) = true ↔
      ((f.kind i).isTerminator = true → pos + 1 = (f.instsOf b).length) := by
    rw [Bool.and_eq_true, decide_eq_true_eq, not_and, ne_eq, not_not]
  have hbefore : ¬ (((f.instsOf b).take pos).any fun j => !(f.kind j).isPhi) = true ↔
      ∀ j ∈ (f.instsOf b).take pos, (f.kind j).isPhi = true := by
    simp
  unfold verifyInst
  dsimp only
  rw [Outcome.guard_eq_ok, hterm]
  by_cases hphi : (f.kind i).isPhi = true
  · rw [if_pos hphi, Outcome.guard_eq_ok, hbefore, Outcome.guard_eq_ok, ne_eq, not_not,
      Outcome.guard_eq_ok, ne_eq, not_not]
    constructor
    · rintro ⟨hlast, hphis, hslots, hblock, huses⟩
      obtain ⟨hops, husers⟩ := verifyUses_iff.1 huses
      exact ⟨hlast, fun _ => hphis, fun _ => hslots, hblock, hops, husers⟩
    · intro h
      exact ⟨h.last, h.phis_before hphi, h.slots hphi, h.block, verifyUses_iff.2 ⟨h.operands, h.users⟩⟩
  · rw [if_neg hphi, Outcome.guard_eq_ok, ne_eq, not_not]
    constructor
    · rintro ⟨hlast, hblock, huses⟩
      obtain ⟨hops, husers⟩ := verifyUses_iff.1 huses
      exact ⟨hlast, fun h => absurd h hphi, fun h => absurd h hphi, hblock, hops, husers⟩
    · intro h
      exact ⟨h.last, h.block, verifyUses_iff.2 ⟨h.operands, h.users⟩⟩

/-- The check of a block. -/
theorem verifyBlock_iff : f.verifyBlock b = .ok () ↔ ∃ succs, f.successors b = .ok succs ∧
      (∀ i pos, (i, pos) ∈ (f.instsOf b).zipIdx → f.CheckedInst b pos i) ∧
      ∀ t ∈ succs, (f.block t).removed = false := by
  have hinsts : ((f.instsOf b).zipIdx.forM fun x => f.verifyInst b x.2 x.1) = .ok ⟨⟩ ↔
      ∀ i pos, (i, pos) ∈ (f.instsOf b).zipIdx → f.CheckedInst b pos i := by
    rw [Outcome.forM_eq_ok]
    exact ⟨fun h i pos hmem => verifyInst_iff.1 (h (i, pos) hmem),
      fun h e he => verifyInst_iff.2 (h e.1 e.2 he)⟩
  have hremoved : ∀ succs : List BlockId, ¬ (succs.any fun s => (f.block s).removed) = true ↔
      ∀ t ∈ succs, (f.block t).removed = false := fun succs => by simp
  unfold verifyBlock
  constructor
  · intro h
    obtain ⟨t, -, h₁⟩ := Outcome.bind_eq_ok.1 h
    obtain ⟨⟨⟩, hall, h₂⟩ := Outcome.bind_eq_ok.1 h₁
    obtain ⟨succs, hsuccs, h₃⟩ := Outcome.bind_eq_ok.1 h₂
    exact ⟨succs, hsuccs, hinsts.1 hall, (hremoved succs).1 (Outcome.report_eq_ok.1 h₃)⟩
  · rintro ⟨succs, hsuccs, hall, htargets⟩
    obtain ⟨t, ht, -⟩ := Outcome.bind_eq_ok.1 hsuccs
    exact Outcome.bind_eq_ok.2 ⟨t, ht, Outcome.bind_eq_ok.2 ⟨⟨⟩, hinsts.2 hall, Outcome.bind_eq_ok.2
      ⟨succs, hsuccs, Outcome.report_eq_ok.2 ((hremoved succs).2 htargets)⟩⟩⟩

/-! ## Predecessors -/

/-- How often a block is the source of an edge. -/
theorem count_flatMap_sources {layout : List BlockId} (hnodup : layout.Nodup) (arms : BlockId → List BlockId)
    (b p : BlockId) : (layout.map fun source => ((arms source).filter (· == b)).map fun _ => source).flatten.count p =
      if p ∈ layout then (arms p).count b else 0 := by
  induction layout with
  | nil => rfl
  | cons s rest ih =>
    obtain ⟨hs, hrest⟩ := List.nodup_cons.1 hnodup
    rw [List.map_cons, List.flatten_cons, List.count_append, ih hrest, List.map_const', List.count_replicate]
    by_cases hp : s = p
    · subst hp
      rw [if_neg hs, if_pos List.mem_cons_self, beq_self_eq_true, if_pos rfl, Nat.add_zero,
        ← List.countP_eq_length_filter]
      rfl
    · have hmem : p ∈ s :: rest ↔ p ∈ rest := by
        rw [List.mem_cons]
        exact ⟨fun h => h.resolve_left (Ne.symm hp), .inr⟩
      rw [if_neg (by simpa using hp), Nat.zero_add]
      simp only [hmem]

/-- The sources of the edges to a block. -/
theorem edgeSources_eq (hends : ∀ p ∈ f.layout, f.successors p = .ok (f.arms p)) (b : BlockId) :
    f.edgeSources b = .ok (f.layout.map fun source =>
      ((f.arms source).filter (· == b)).map fun _ => source).flatten := by
  have hone : ∀ p ∈ f.layout, (do
      let succs ← f.successors p
      return (succs.filter (· == b)).map fun _ => p : Outcome (List BlockId)) =
        .ok (((f.arms p).filter (· == b)).map fun _ => p) := by
    intro p hp
    rw [hends p hp]
    rfl
  unfold edgeSources
  rw [Outcome.mapM_eq_ok hone]
  rfl

/-- Lists with the same entries are sorted alike. -/
theorem sorted_eq_iff {l l' : List BlockId} : sorted l = sorted l' ↔ l.Perm l' := by
  have hperm : ∀ l : List BlockId, (sorted l).Perm l := fun l => List.mergeSort_perm l _
  have hpairwise : ∀ l : List BlockId, (sorted l).Pairwise fun a b => decide (a ≤ b) = true := by
    refine fun l => List.pairwise_mergeSort (fun a b c hab hbc => ?_) (fun a b => ?_) l
    · exact decide_eq_true (Nat.le_trans (of_decide_eq_true hab) (of_decide_eq_true hbc))
    · rw [Bool.or_eq_true, decide_eq_true_eq, decide_eq_true_eq]
      exact Nat.le_total a b
  constructor
  · intro h
    have hl := hperm l
    rw [h] at hl
    exact hl.symm.trans (hperm l')
  · intro h
    refine (((hperm l).trans h).trans (hperm l').symm).eq_of_pairwise (fun a b _ _ hab hba => ?_)
      (hpairwise l) (hpairwise l')
    exact Nat.le_antisymm (of_decide_eq_true hab) (of_decide_eq_true hba)

/-- The check of a predecessor list. -/
theorem verifyPreds_iff (hnodup : f.layout.Nodup) (hends : ∀ p ∈ f.layout, f.successors p = .ok (f.arms p)) :
    f.verifyPreds b = .ok () ↔ ∀ p, (f.preds b).count p = if p ∈ f.layout then (f.arms p).count b else 0 := by
  unfold verifyPreds
  rw [edgeSources_eq hends]
  change (if _ then _ else _) = _ ↔ _
  rw [Outcome.report_eq_ok, ne_eq, not_not, sorted_eq_iff, List.perm_iff_count]
  simp only [count_flatMap_sources hnodup]
  exact ⟨fun h p => (h p).symm, fun h p => (h p).symm⟩

/-! ## Accepted functions -/

/-- The terminator of a block that passes the checks is its last instruction and its only terminator. -/
theorem ends_of_checked {succs : List BlockId} (hsuccs : f.successors b = .ok succs)
    (hall : ∀ i pos, (i, pos) ∈ (f.instsOf b).zipIdx → f.CheckedInst b pos i) :
    ∃ before t, f.instsOf b = before ++ [t] ∧ (f.kind t).isTerminator = true ∧
      ∀ i ∈ before, (f.kind i).isTerminator = false := by
  obtain ⟨t, ht, -⟩ := Outcome.bind_eq_ok.1 hsuccs
  unfold terminator at ht
  split at ht
  · rename_i last hlast
    split at ht
    · rename_i hterm
      cases ht
      obtain ⟨before, hbefore⟩ := List.getLast?_eq_some_iff.1 hlast
      refine ⟨before, t, hbefore, hterm, fun i hi => ?_⟩
      obtain ⟨pos, hpos⟩ := List.getElem?_of_mem hi
      have hlt := (List.getElem?_eq_some_iff.1 hpos).1
      have hat : (f.instsOf b)[pos]? = some i := by
        rw [hbefore, List.getElem?_append_left hlt]
        exact hpos
      have hchecked := hall i pos (List.mem_zipIdx_iff_getElem?.2 hat)
      rw [Bool.eq_false_iff]
      intro hi'
      have hend := hchecked.last hi'
      rw [hbefore, List.length_append, List.length_singleton] at hend
      omega
    · cases ht
  · cases ht

/-- What was checked of the blocks of an accepted function. -/
theorem checked_of_verify (h : f.verify = .ok ()) (hb : b ∈ f.layout) :
    ∃ succs, f.successors b = .ok succs ∧ (∀ i pos, (i, pos) ∈ (f.instsOf b).zipIdx → f.CheckedInst b pos i) ∧
      ∀ t ∈ succs, (f.block t).removed = false := by
  unfold verify at h
  split at h
  · cases h
  · rw [Outcome.guard_eq_ok] at h
    obtain ⟨⟨⟩, hblocks, -⟩ := Outcome.bind_eq_ok.1 h.2
    exact verifyBlock_iff.1 (Outcome.forM_eq_ok.1 hblocks b hb)

/-- A sound function that is accepted is regular. -/
theorem regular_of_verify (hs : f.Sound) (h : f.verify = .ok ()) : f.Regular := by
  have hchecked := fun b (hb : b ∈ f.layout) => checked_of_verify h hb
  unfold verify at h
  split at h
  · cases h
  · rename_i e he
    rw [Outcome.guard_eq_ok, Bool.not_eq_true', Bool.not_eq_false, List.isEmpty_iff] at h
    obtain ⟨hentry, hrest⟩ := h
    obtain ⟨⟨⟩, -, hpreds⟩ := Outcome.bind_eq_ok.1 hrest
    have hsuccs : ∀ b ∈ f.layout, f.successors b = .ok (f.arms b) := by
      intro b hb
      obtain ⟨succs, hsuccs, -⟩ := hchecked b hb
      rw [arms_of_successors hsuccs, hsuccs]
    obtain ⟨rest, hlayout⟩ := List.head?_eq_some_iff.1 he
    refine ⟨⟨e, rest, hlayout, hentry⟩, fun b hb => ?_, fun b hb before i after hinsts hphi j hj => ?_,
      fun b hb i hi hphi => ?_, fun b hb t ht => ?_, fun b hb p => ?_⟩
    · obtain ⟨succs, hsuccs, hall, -⟩ := hchecked b hb
      exact ends_of_checked hsuccs hall
    · obtain ⟨-, -, hall, -⟩ := hchecked b hb
      have hat : (f.instsOf b)[before.length]? = some i := by
        rw [hinsts, List.getElem?_append_right (Nat.le_refl _), Nat.sub_self]
        rfl
      refine (hall i before.length (List.mem_zipIdx_iff_getElem?.2 hat)).phis_before hphi j ?_
      rw [hinsts, List.take_left]
      exact hj
    · obtain ⟨-, -, hall, -⟩ := hchecked b hb
      obtain ⟨pos, hpos⟩ := List.getElem?_of_mem hi
      exact (hall i pos (List.mem_zipIdx_iff_getElem?.2 hpos)).slots hphi
    · obtain ⟨succs, hsuccs', -, htargets⟩ := hchecked b hb
      rw [hsuccs b hb] at hsuccs'
      cases hsuccs'
      exact htargets t ht
    · exact (verifyPreds_iff hs.layout_nodup hsuccs).1 (Outcome.forM_eq_ok.1 hpreds b hb) p

/-! ## Acceptable functions -/

/-- Operands are live, and an instruction that stands in no block has none. -/
structure Closed (f : Function) : Prop where
  live : ∀ i, ∀ v ∈ f.operands i, (f.value v).live = true
  detached : ∀ i, f.blockOf? i = none → f.operands i = []

/-- The rules of a regular function without the one about the predecessors of the entry. -/
structure Shaped (f : Function) : Prop where
  nonempty : f.layout ≠ []
  ends : ∀ b ∈ f.layout, ∃ before t, f.instsOf b = before ++ [t] ∧ (f.kind t).isTerminator = true ∧
    ∀ i ∈ before, (f.kind i).isTerminator = false
  phis_first : ∀ b ∈ f.layout, ∀ before i after, f.instsOf b = before ++ i :: after →
    (f.kind i).isPhi = true → ∀ j ∈ before, (f.kind j).isPhi = true
  slots : ∀ b ∈ f.layout, ∀ i ∈ f.instsOf b, (f.kind i).isPhi = true →
    (f.operands i).length = (f.preds b).length
  targets : ∀ b ∈ f.layout, ∀ t ∈ f.arms b, (f.block t).removed = false
  preds : ∀ b ∈ f.layout, ∀ p, (f.preds b).count p = if p ∈ f.layout then (f.arms p).count b else 0

theorem Regular.shaped (h : f.Regular) : f.Shaped := by
  obtain ⟨e, rest, hlayout, -⟩ := h.entry
  refine ⟨?_, h.ends, h.phis_first, h.slots, h.targets, h.preds⟩
  rw [hlayout]
  exact List.cons_ne_nil e rest

namespace Shaped

variable (h : f.Shaped)

include h

theorem successors (hb : b ∈ f.layout) : f.successors b = .ok (f.arms b) := by
  obtain ⟨before, t, hinsts, ht, -⟩ := h.ends b hb
  unfold Function.successors terminator arms
  rw [hinsts, List.getLast?_concat]
  dsimp only
  rw [if_pos ht]
  rfl

/-- The edges lead from terminators. -/
theorem mem_arms_iff {c : BlockId} (hb : b ∈ f.layout) :
    c ∈ f.arms b ↔ ∃ i ∈ f.instsOf b, (f.kind i).isTerminator = true ∧ c ∈ (f.kind i).targets := by
  obtain ⟨before, t, hinsts, ht, hbefore⟩ := h.ends b hb
  unfold arms
  rw [hinsts, List.getLast?_concat]
  constructor
  · exact fun hc => ⟨t, List.mem_append_right _ (List.mem_singleton.2 rfl), ht, hc⟩
  · rintro ⟨i, hi, hterm, hc⟩
    rcases List.mem_append.1 hi with hi | hi
    · rw [hbefore i hi] at hterm
      cases hterm
    · rw [List.mem_singleton.1 hi] at hc
      exact hc

theorem edgeSources_eq (b : BlockId) : f.edgeSources b = .ok (f.layout.map fun source =>
    ((f.arms source).filter (· == b)).map fun _ => source).flatten :=
  Function.edgeSources_eq (fun _ hp => h.successors hp) b

/-- The predecessors of a block are the sources of the edges to it. -/
theorem preds_perm (hs : f.Sound) (hb : b ∈ f.layout) : (f.preds b).Perm (f.layout.map fun source =>
    ((f.arms source).filter (· == b)).map fun _ => source).flatten := by
  rw [List.perm_iff_count]
  intro p
  rw [count_flatMap_sources hs.layout_nodup, h.preds b hb]

/-- Every instruction passes its check. -/
theorem checkedInst (hs : f.Sound) (hc : f.Closed) (hb : b ∈ f.layout) (hi : (i, pos) ∈ (f.instsOf b).zipIdx) :
    f.CheckedInst b pos i := by
  have hat : (f.instsOf b)[pos]? = some i := List.mem_zipIdx_iff_getElem?.1 hi
  have hmem : i ∈ f.instsOf b := List.mem_of_getElem? hat
  refine ⟨fun hterm => ?_, fun hphi j hj => ?_, h.slots b hb i hmem, (hs.placed b i).1 hmem, fun v slot hv => ?_,
    fun r _ u hu => ?_⟩
  · obtain ⟨before, t, hinsts, -, hbefore⟩ := h.ends b hb
    rw [hinsts, List.length_append, List.length_singleton]
    have hlt := (List.getElem?_eq_some_iff.1 hat).1
    rw [hinsts, List.length_append, List.length_singleton] at hlt
    rcases Nat.lt_or_eq_of_le (Nat.lt_succ_iff.1 hlt) with hpos | hpos
    · rw [hinsts, List.getElem?_append_left hpos] at hat
      rw [hbefore i (List.mem_of_getElem? hat)] at hterm
      cases hterm
    · rw [hpos]
  · obtain ⟨hlt, hget⟩ := List.getElem?_eq_some_iff.1 hat
    refine h.phis_first b hb ((f.instsOf b).take pos) i ((f.instsOf b).drop (pos + 1)) ?_ hphi j hj
    rw [← hget, List.getElem_cons_drop, List.take_append_drop]
  · have hread : f.reads ⟨i, slot⟩ = some v := List.mem_zipIdx_iff_getElem?.1 hv
    refine ⟨hc.live i v (List.mem_of_getElem? hread), ?_⟩
    rw [hs.indexed, if_pos hread]
  · have hread : f.reads u = some r := by
      by_contra hne
      have hcount := hs.indexed r u
      rw [if_neg hne] at hcount
      exact List.count_eq_zero.1 hcount hu
    refine Option.isSome_iff_ne_none.2 fun hnone => ?_
    unfold reads at hread
    rw [hc.detached u.user hnone] at hread
    cases hread

/-- Verification accepts a function in shape, unless its entry has predecessors. -/
theorem verify_eq (hs : f.Sound) (hc : f.Closed) {e : BlockId} (he : f.layout.head? = some e) :
    f.verify = if (f.preds e).isEmpty then .ok ()
      else .error (.error (.invariant f.name (.entryHasPredecessors (f.blockName e)))) := by
  unfold verify
  rw [he]
  dsimp only
  cases hentry : (f.preds e).isEmpty with
  | false => rfl
  | true =>
    refine Outcome.bind_eq_ok.2 ⟨⟨⟩, Outcome.forM_eq_ok.2 fun b hb => ?_, Outcome.forM_eq_ok.2 fun b hb => ?_⟩
    · exact verifyBlock_iff.2 ⟨f.arms b, h.successors hb, fun i pos hi => h.checkedInst hs hc hb hi, h.targets b hb⟩
    · exact (verifyPreds_iff hs.layout_nodup fun p hp => h.successors hp).2 (h.preds b hb)

end Shaped

/-- Verification accepts regular functions whose operands are live. -/
theorem verify_of_regular (hs : f.Sound) (hr : f.Regular) (hc : f.Closed) : f.verify = .ok () := by
  obtain ⟨e, rest, hlayout, hpreds⟩ := hr.entry
  rw [hr.shaped.verify_eq hs hc (by rw [hlayout]; rfl), hpreds]
  rfl

end Function

end SsaCompiler
