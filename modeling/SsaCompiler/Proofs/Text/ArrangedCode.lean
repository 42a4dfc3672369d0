import SsaCompiler.Proofs.Text.BuiltFunctions

/-!
# Code in arrangement

While a body is built, phis stand first in their blocks, nothing stands behind a terminator, and the predecessor list
of a block has an entry for each arm that leads to it (`Arranged`). Both steps that add an instruction put it between
two parts of a block (`Put`); what they keep follows from what may stand before and behind the new instruction.
-/

set_option autoImplicit false

namespace SsaCompiler

open Edits Relation

namespace Function

variable {f f' : Function}

/-! ## Putting an instruction into a block -/

/-- A function with one more instruction, which was put between two parts of a block, and with the edges that it
opens. -/
structure Put (f f' : Function) (kind : InstKind) (operands : List ValueId) (b : BlockId) (before after : List InstId) :
    Prop where
  insts_size : f'.insts.size = f.insts.size + 1
  blocks_size : f'.blocks.size = f.blocks.size
  others : ∀ i, i ≠ f.insts.size → f'.inst i = f.inst i
  kind_new : f'.kind f.insts.size = kind
  operands_new : f'.operands f.insts.size = operands
  blockOf_new : f'.blockOf? f.insts.size = some b
  result_new : kind.alwaysGives = true → f'.result? f.insts.size ≠ none
  parts : f.instsOf b = before ++ after
  instsOf : ∀ c, f'.instsOf c = if c = b then before ++ f.insts.size :: after else f.instsOf c
  preds : ∀ c, f'.preds c = f.preds c ++ List.replicate (kind.targets.count c) b
  removed : ∀ c, (f'.block c).removed = (f.block c).removed
  live : ∀ v, (f'.value v).live = (f.value v).live

/-- Opening the edges of an instruction. -/
theorem forM_addPred_spec {targets : List BlockId} {b : BlockId} :
    ∀ {f f' : Function}, (targets.forM fun t => Edit.addPred t b).run f = (.ok (), f') →
      (∀ i, f'.inst i = f.inst i) ∧ f'.insts.size = f.insts.size ∧ f'.blocks.size = f.blocks.size ∧
      (∀ c, f'.instsOf c = f.instsOf c ∧ (f'.block c).removed = (f.block c).removed ∧
        f'.preds c = f.preds c ++ List.replicate (targets.count c) b) ∧
      ∀ v, (f'.value v).live = (f.value v).live := by
  induction targets with
  | nil =>
    intro f f' h
    cases h
    exact ⟨fun _ => rfl, rfl, rfl, fun c => ⟨rfl, rfl, (List.append_nil _).symm⟩, fun _ => rfl⟩
  | cons t rest ih =>
    intro f f' h
    obtain ⟨⟨⟩, f₁, hfirst, hrest⟩ := bind_eq_ok h
    obtain ⟨-, hsize₁, hbecomes, -⟩ := Edit.addPred_spec hfirst
    obtain ⟨hinst, hsize, hblocks, hblock, hlive⟩ := ih hrest
    have hlive₁ := (Edit.keepsMarks_addPred t b).live_eq hfirst
    refine ⟨fun i => (hinst i).trans (hbecomes.inst i), hsize.trans hsize₁, hblocks.trans hbecomes.blocks_size,
      fun c => ?_, fun v => (hlive v).trans (hlive₁ v)⟩
    obtain ⟨hinsts, hremoved, hpreds⟩ := hblock c
    rw [hinsts, hremoved, hpreds]
    unfold instsOf preds
    rw [hbecomes.block]
    by_cases hc : c = t
    · subst hc
      rw [Function.update_self, List.count_cons_self, List.replicate_succ, List.append_assoc]
      exact ⟨rfl, rfl, rfl⟩
    · rw [Function.update_of_ne hc, List.count_cons_of_ne (Ne.symm hc)]
      exact ⟨rfl, rfl, rfl⟩

variable {c : BlockId} {hasResult : Bool} {f₁ : Function} {i j : InstId}

variable {f₂ : Function}

/-- A new instruction that is placed in a block, and then the edges that it opens. -/
theorem put_of_place {kind : InstKind} {operands : List ValueId} {b : BlockId} {before after : List InstId}
    (hparts : f.instsOf b = before ++ after) (hvalued : kind.alwaysGives = true → hasResult = true)
    (hcreate : (Edit.createInst kind operands hasResult).run f = (.ok i, f₁))
    (hplace : (Edit.place b before.length i).run f₁ = (.ok (), f₂))
    (hedges : (kind.targets.forM fun t => Edit.addPred t b).run f₂ = (.ok (), f')) :
    b < f.blocks.size ∧ f.Put f' kind operands b before after := by
  have hlive₁ := (Edit.keepsMarks_createInst kind operands hasResult).live_eq hcreate
  have hlive₂ := (Edit.keepsMarks_place b before.length i).live_eq hplace
  obtain ⟨rfl, hcreated⟩ := Edit.created_createInst hcreate
  obtain ⟨-, hb, -, hsize, hbecomes, -⟩ := Edit.place_spec hplace
  obtain ⟨hinst, hsize', hblocks, hblock, hlive⟩ := forM_addPred_spec hedges
  have hnew : f'.inst f.insts.size = { f₁.inst f.insts.size with block := some b } := by
    rw [hinst, hbecomes.inst, Function.update_self]
  rw [hcreated.inst, Function.update_self] at hnew
  have hinsts₁ : f₁.instsOf b = before ++ after := (congrArg BlockData.insts (hcreated.block b)).trans hparts
  refine ⟨hcreated.blocks_size ▸ hb, (hsize'.trans hsize).trans hcreated.insts_size,
    (hblocks.trans hbecomes.blocks_size).trans hcreated.blocks_size, fun j hj => ?_, congrArg InstData.kind hnew,
    congrArg InstData.operands hnew, congrArg InstData.block hnew, fun hkind => ?_, hparts, fun c => ?_, fun c => ?_,
    fun c => ?_, fun v => (hlive v).trans ((hlive₂ v).trans (hlive₁ v))⟩
  · rw [hinst, hbecomes.inst, Function.update_of_ne hj, hcreated.inst, Function.update_of_ne hj]
  · rw [result?, hnew, hvalued hkind]
    exact Option.some_ne_none _
  · rw [(hblock c).1]
    unfold Function.instsOf at hinsts₁ ⊢
    rw [hbecomes.block, Function.update_apply]
    split
    · change List.insertIdx (f₁.block b).insts _ _ = _
      rw [hinsts₁, insertIdx_append_length]
    · rw [hcreated.block]
  · rw [(hblock c).2.2]
    unfold Function.preds
    rw [hbecomes.block, Function.update_apply]
    split
    · rename_i hc
      rw [hc, ← hcreated.block]
    · rw [hcreated.block]
  · rw [(hblock c).2.1, hbecomes.block, Function.update_apply]
    split
    · rename_i hc
      rw [hc, ← hcreated.block]
    · rw [hcreated.block]

/-- The number of a new instruction was free. -/
theorem Sound.size_not_mem (hs : f.Sound) (b : BlockId) : f.insts.size ∉ f.instsOf b := by
  intro hin
  have hblock := (hs.placed b _).1 hin
  unfold blockOf? at hblock
  rw [Edit.inst_of_size_le (Nat.le_refl _)] at hblock
  cases hblock

/-- A new instruction leaves the kinds of those in blocks alone. -/
theorem kind_created {kind : InstKind} {operands : List ValueId} (hs : f.Sound)
    (hcreate : (Edit.createInst kind operands hasResult).run f = (.ok i, f₁)) {b : BlockId} (hj : j ∈ f.instsOf b) :
    f₁.kind j = f.kind j := by
  obtain ⟨-, hcreated⟩ := Edit.created_createInst hcreate
  unfold Function.kind
  rw [hcreated.inst, Function.update_of_ne]
  rintro rfl
  exact hs.size_not_mem b hj

/-- Whether a block has its terminator is seen at its last instruction. -/
theorem isTerminated_congr {b : BlockId} (hlast : (f'.instsOf b).getLast? = (f.instsOf b).getLast?)
    (hkind : ∀ j ∈ f.instsOf b, f'.kind j = f.kind j) : Edit.isTerminated f' b = Edit.isTerminated f b := by
  unfold Edit.isTerminated
  rw [hlast]
  split
  · rename_i t ht
    rw [hkind t (List.mem_of_getLast? ht)]
  · rfl

/-- Appending an instruction. -/
theorem put_append {kind : InstKind} {operands : List ValueId} {b : BlockId} (hs : f.Sound)
    (hvalued : kind.alwaysGives = true → hasResult = true)
    (hcreate : (Edit.createInst kind operands hasResult).run f = (.ok i, f₁))
    (hpush : (Edit.pushBack b i).run f₁ = (.ok (), f₂))
    (hedges : (kind.targets.forM fun t => Edit.addPred t b).run f₂ = (.ok (), f')) :
    Edit.isTerminated f b = false ∧ b < f.blocks.size ∧ f.Put f' kind operands b (f.instsOf b) [] := by
  obtain ⟨hopen, -, hplace⟩ := Edit.place_of_pushBack hpush
  have hinsts : f₁.instsOf b = f.instsOf b := congrArg BlockData.insts ((Edit.created_createInst hcreate).2.block b)
  rw [hinsts] at hplace
  rw [isTerminated_congr (congrArg _ hinsts) fun j hj => kind_created hs hcreate hj] at hopen
  exact ⟨hopen, put_of_place (List.append_nil _).symm hvalued hcreate hplace hedges⟩

/-- Putting an empty phi behind the phis of a block. -/
theorem put_phi {b : BlockId} (hs : f.Sound) (hcreate : (Edit.createInst .phi [] true).run f = (.ok i, f₁))
    (hinsert : (Edit.insertPhi b i).run f₁ = (.ok (), f')) : b < f.blocks.size ∧
      f.Put f' .phi [] b (f.phis b) ((f.instsOf b).dropWhile fun i => (f.kind i).isPhi) := by
  have hphis : f₁.phis b = f.phis b := by
    unfold phis
    rw [show f₁.instsOf b = f.instsOf b from congrArg BlockData.insts ((Edit.created_createInst hcreate).2.block b)]
    exact takeWhile_congr fun j hj => by rw [kind_created hs hcreate hj]
  obtain ⟨-, hplace⟩ := Edit.place_of_insertPhi hinsert
  rw [hphis] at hplace
  exact put_of_place (f.phis_append b).symm (fun _ => rfl) hcreate hplace rfl

/-! ## What building keeps -/

/-- The blocks to which the instructions of a block lead. -/
def outs (f : Function) (b : BlockId) : List BlockId := (f.instsOf b).flatMap fun i => (f.kind i).targets

/-- What holds of a body at every time while it is built. -/
structure Arranged (f : Function) : Prop where
  sorted : ∀ b, (f.instsOf b).Pairwise fun i j =>
    (f.kind i).isTerminator = false ∧ ((f.kind j).isPhi = true → (f.kind i).isPhi = true)
  edges : ∀ b p, (f.preds b).count p = (f.outs p).count b
  placed : ∀ i, i < f.insts.size → f.blockOf? i ≠ none
  valued : ∀ i, i < f.insts.size → (f.kind i).alwaysGives = true → f.result? i ≠ none
  kept : ∀ b, (f.block b).removed = false
  live : ∀ v, (f.value v).live = true

/-- There is no record behind the last block. -/
theorem block_of_size_le {b : BlockId} (h : f.blocks.size ≤ b) : f.block b = default := by
  unfold Function.block
  rw [Array.getD_eq_getD_getElem?, Array.getElem?_eq_none h]
  rfl

/-- A function without blocks and instructions. -/
structure Blank (f : Function) : Prop where
  insts : f.insts.size = 0
  blocks : f.blocks.size = 0
  live : ∀ v, (f.value v).live = true

theorem Blank.block (h : f.Blank) (b : BlockId) : f.block b = default := block_of_size_le (h.blocks ▸ Nat.zero_le b)

theorem Blank.arranged (h : f.Blank) : f.Arranged := by
  have hinsts : ∀ b, f.instsOf b = [] := fun b => congrArg BlockData.insts (h.block b)
  have hpreds : ∀ b, f.preds b = [] := fun b => congrArg BlockData.preds (h.block b)
  refine ⟨fun b => ?_, fun b p => ?_, fun i hi => ?_, fun i hi => ?_, fun b => ?_, h.live⟩
  · rw [hinsts]
    exact List.Pairwise.nil
  · unfold outs
    rw [hpreds, hinsts]
    rfl
  · exact absurd hi (h.insts ▸ Nat.not_lt_zero i)
  · exact absurd hi (h.insts ▸ Nat.not_lt_zero i)
  · rw [h.block]
    rfl

/-- A new function is blank. -/
theorem blank_new (name : String) (paramCount : Nat) (returnsValue : Bool) :
    (Function.new name paramCount returnsValue).Blank := by
  refine ⟨rfl, rfl, fun v => ?_⟩
  unfold value Function.new
  rw [Array.getD_eq_getD_getElem?, Array.getElem?_ofFn]
  split <;> rfl

namespace Put

variable {kind : InstKind} {operands : List ValueId} {b : BlockId} {before after : List InstId}

section

variable (h : f.Put f' kind operands b before after) (hs : f.Sound)

include h hs

theorem kind_old (hj : j ∈ f.instsOf c) : f'.kind j = f.kind j := by
  unfold Function.kind
  rw [h.others]
  rintro rfl
  exact hs.size_not_mem c hj

/-- Where an instruction leads is seen in the predecessor lists. -/
theorem count_outs (p c : BlockId) :
    (f'.outs p).count c = (f.outs p).count c + if p = b then kind.targets.count c else 0 := by
  have hflat : ∀ part : List InstId, (∀ j ∈ part, j ∈ f.instsOf p) →
      part.flatMap (fun i => (f'.kind i).targets) = part.flatMap fun i => (f.kind i).targets :=
    fun part hpart => List.flatMap_congr fun j hj => by rw [h.kind_old hs (hpart j hj)]
  unfold outs
  rw [h.instsOf]
  by_cases hp : p = b
  · subst hp
    rw [if_pos rfl, if_pos rfl, List.flatMap_append, List.flatMap_cons, h.kind_new,
      hflat before fun j hj => h.parts ▸ List.mem_append_left _ hj,
      hflat after fun j hj => h.parts ▸ List.mem_append_right _ hj, h.parts, List.flatMap_append]
    simp only [List.count_append]
    omega
  · rw [if_neg hp, if_neg hp, hflat _ fun j hj => hj]
    rfl

/-- Putting an instruction where it belongs keeps the code arranged. -/
theorem arranged (ha : f.Arranged)
    (hbefore : ∀ j ∈ before, (f.kind j).isTerminator = false ∧ (kind.isPhi = true → (f.kind j).isPhi = true))
    (hafter : ∀ j ∈ after, kind.isTerminator = false ∧ ((f.kind j).isPhi = true → kind.isPhi = true)) :
    f'.Arranged := by
  refine ⟨fun c => ?_, fun c p => ?_, fun i hi => ?_, fun i hi hkind => ?_, fun c => ?_, fun v => ?_⟩
  · have hold : ∀ part : List InstId, part.Sublist (f.instsOf c) → part.Pairwise fun i j =>
        (f'.kind i).isTerminator = false ∧ ((f'.kind j).isPhi = true → (f'.kind i).isPhi = true) := by
      intro part hpart
      refine ((ha.sorted c).sublist hpart).imp_of_mem fun hi hj hij => ?_
      rwa [h.kind_old hs (hpart.subset hi), h.kind_old hs (hpart.subset hj)]
    rw [h.instsOf]
    by_cases hc : c = b
    · subst hc
      have hkind : ∀ j, j ∈ before ∨ j ∈ after → f'.kind j = f.kind j := fun j hj =>
        h.kind_old hs (b := c) (h.parts ▸ List.mem_append.2 hj)
      rw [if_pos rfl, List.pairwise_append, List.pairwise_cons]
      refine ⟨hold _ (h.parts ▸ List.sublist_append_left ..), ⟨fun j hj => ?_, hold _ (h.parts ▸ List.sublist_append_right ..)⟩,
        fun i hi j hj => ?_⟩
      · rw [h.kind_new, hkind j (.inr hj)]
        exact hafter j hj
      · rw [hkind i (.inl hi)]
        rcases List.mem_cons.1 hj with rfl | hj
        · rw [h.kind_new]
          exact hbefore i hi
        · have hsorted := ha.sorted c
          rw [h.parts] at hsorted
          rw [hkind j (.inr hj)]
          exact (List.pairwise_append.1 hsorted).2.2 i hi j hj
    · rw [if_neg hc]
      exact hold _ (List.Sublist.refl _)
  · rw [h.preds, h.count_outs hs, List.count_append, ha.edges, List.count_replicate]
    by_cases hp : p = b
    · rw [if_pos hp, hp, beq_self_eq_true, if_pos rfl]
    · rw [if_neg hp, if_neg (by simpa using Ne.symm hp)]
  · by_cases hnew : i = f.insts.size
    · rw [hnew, h.blockOf_new]
      exact Option.some_ne_none b
    · unfold blockOf?
      rw [h.others i hnew]
      rw [h.insts_size] at hi
      exact ha.placed i (by omega)
  · by_cases hnew : i = f.insts.size
    · subst hnew
      exact h.result_new (h.kind_new ▸ hkind)
    · unfold Function.kind at hkind
      unfold result?
      rw [h.others i hnew] at hkind ⊢
      rw [h.insts_size] at hi
      exact ha.valued i (by omega) hkind
  · rw [h.removed]
    exact ha.kept c
  · rw [h.live]
    exact ha.live v

end

end Put

/-- No instruction of a block without a terminator at its end is a terminator. -/
theorem Arranged.not_isTerminator (ha : f.Arranged) {b : BlockId} (hopen : Edit.isTerminated f b = false)
    (hj : j ∈ f.instsOf b) : (f.kind j).isTerminator = false := by
  have hsorted := ha.sorted b
  unfold Edit.isTerminated at hopen
  rcases List.eq_nil_or_concat (f.instsOf b) with hnil | ⟨before, t, hinsts⟩
  · rw [hnil] at hj
    exact absurd hj List.not_mem_nil
  · rw [hinsts, List.concat_eq_append] at hj hsorted hopen
    rw [List.getLast?_concat] at hopen
    rcases List.mem_append.1 hj with hj | hj
    · exact ((List.pairwise_append.1 hsorted).2.2 j hj t (List.mem_singleton.2 rfl)).1
    · rw [List.mem_singleton.1 hj]
      exact hopen

/-- A block has the same contents in two functions. -/
structure SameBlock (f f' : Function) (b : BlockId) : Prop where
  insts : f'.instsOf b = f.instsOf b
  preds : f'.preds b = f.preds b
  removed : (f'.block b).removed = (f.block b).removed

theorem sameBlock_of_eq {b : BlockId} (h : f'.block b = f.block b) : f.SameBlock f' b :=
  ⟨congrArg BlockData.insts h, congrArg BlockData.preds h, congrArg BlockData.removed h⟩

theorem Arranged.congr (ha : f.Arranged) (hkind : ∀ i, f'.kind i = f.kind i) (hplace : ∀ i, f'.blockOf? i = f.blockOf? i)
    (hresult : ∀ i, f'.result? i = f.result? i) (hsize : f'.insts.size = f.insts.size) (hblock : ∀ b, f.SameBlock f' b)
    (hlive : ∀ v, (f'.value v).live = (f.value v).live) : f'.Arranged := by
  refine ⟨fun b => ?_, fun b p => ?_, fun i hi => ?_, fun i hi hgives => ?_, fun b => ?_, fun v => ?_⟩
  · simp only [(hblock b).insts, hkind]
    exact ha.sorted b
  · unfold outs
    simp only [(hblock b).preds, (hblock p).insts, hkind]
    exact ha.edges b p
  · rw [hplace]
    exact ha.placed i (hsize ▸ hi)
  · rw [hresult]
    exact ha.valued i (hsize ▸ hi) (hkind i ▸ hgives)
  · rw [(hblock b).removed]
    exact ha.kept b
  · rw [hlive]
    exact ha.live v

/-- A new block holds nothing, as the record behind the last block did. -/
theorem sameBlock_createBlock {name : String} {b : BlockId} (h : (Edit.createBlock name).run f = (.ok b, f'))
    (c : BlockId) : f.SameBlock f' c := by
  obtain ⟨rfl, rfl⟩ := Edit.createBlock_spec h
  by_cases hc : c = f.blocks.size
  · have hold : f.block c = default := block_of_size_le (Nat.le_of_eq hc.symm)
    refine ⟨?_, ?_, ?_⟩
    · unfold instsOf
      rw [block_push, hold, hc, Function.update_self]
      rfl
    · unfold preds
      rw [block_push, hold, hc, Function.update_self]
      rfl
    · rw [block_push, hold, hc, Function.update_self]
      rfl
  · refine sameBlock_of_eq ?_
    rw [block_push, Function.update_of_ne hc]

/-- Giving a phi a slot. -/
theorem pushOperand_same {v : ValueId} (h : (Edit.pushOperand i v).run f = (.ok (), f')) :
    (∀ j, f'.kind j = f.kind j) ∧ (∀ j, f'.blockOf? j = f.blockOf? j) ∧ (∀ j, f'.result? j = f.result? j) ∧
      f'.insts.size = f.insts.size ∧ (∀ b, f'.block b = f.block b) ∧ f'.blocks.size = f.blocks.size ∧
      ∀ j, f'.operands j = if j = i then f.operands i ++ [v] else f.operands j := by
  obtain ⟨-, -, hsize, hbecomes, -⟩ := Edit.pushOperand_spec h
  have hinst : ∀ j, f'.inst j = if j = i then { f.inst i with operands := f.operands i ++ [v] } else f.inst j :=
    fun j => by rw [hbecomes.inst, Function.update_apply]
  refine ⟨fun j => ?_, fun j => ?_, fun j => ?_, hsize, hbecomes.block, hbecomes.blocks_size, fun j => ?_⟩
  · unfold kind
    rw [hinst]
    split <;> simp_all
  · unfold blockOf?
    rw [hinst]
    split <;> simp_all
  · unfold result?
    rw [hinst]
    split <;> simp_all
  · unfold operands
    rw [hinst]
    split <;> rfl

theorem CodeStep.arranged (h : f.CodeStep f') (hs : f.Sound) (ha : f.Arranged) : f'.Arranged := by
  cases h with
  | values h =>
    exact ha.congr (fun i => congrArg InstData.kind (h.inst i)) (fun i => congrArg InstData.block (h.inst i))
      (fun i => congrArg InstData.result (h.inst i)) h.insts_size (fun b => sameBlock_of_eq (h.block b)) h.live
  | append hfits hphi hgives hvalued hcreate hpush hedges =>
    rename_i f₁ f₂ kind operands hasResult b i
    obtain ⟨hopen, -, hput⟩ := put_append hs hvalued hcreate hpush hedges
    refine hput.arranged hs ha (fun j hj => ⟨ha.not_isTerminator hopen hj, fun h => ?_⟩) fun j hj => ?_
    · rw [hphi] at h
      cases h
    · exact absurd hj List.not_mem_nil

theorem BuildStep.arranged (h : f.BuildStep f') (hs : f.Sound) (ha : f.Arranged) : f'.Arranged := by
  cases h with
  | code h => exact h.arranged hs ha
  | block h =>
    have hsame := sameBlock_createBlock h
    obtain ⟨-, rfl⟩ := Edit.createBlock_spec h
    exact ha.congr (fun _ => rfl) (fun _ => rfl) (fun _ => rfl) rfl hsame fun _ => rfl
  | phi hcreate hinsert =>
    obtain ⟨-, hput⟩ := put_phi hs hcreate hinsert
    refine hput.arranged hs ha (fun j hj => ?_) fun j hj => ⟨rfl, fun _ => rfl⟩
    have hphi := isPhi_of_mem_phis f hj
    refine ⟨?_, fun _ => hphi⟩
    rw [InstKind.isPhi_eq_true.1 hphi]
    rfl
  | slot hphi hpush =>
    obtain ⟨hkind, hplace, hresult, hsize, hblock, -, -⟩ := pushOperand_same hpush
    refine ha.congr hkind hplace hresult hsize (fun b => sameBlock_of_eq (hblock b)) fun v => ?_
    exact (Edit.keepsMarks_pushOperand _ _).live_eq hpush v

theorem BuildSteps.arranged (h : f.BuildSteps f') (hs : f.Sound) (ha : f.Arranged) : f'.Sound ∧ f'.Arranged := by
  induction h with
  | refl => exact ⟨hs, ha⟩
  | tail _ hstep ih => exact ⟨hstep.sound ih.1, hstep.arranged ih.1 ih.2⟩

/-! ## Blocks with terminators -/

/-- A block with a terminator keeps it when an instruction is put elsewhere or before something. -/
theorem Put.isTerminated {kind : InstKind} {operands : List ValueId} {b : BlockId} {before after : List InstId}
    (h : f.Put f' kind operands b before after) (hs : f.Sound) (hc : c = b → after ≠ []) :
    Edit.isTerminated f' c = Edit.isTerminated f c := by
  refine isTerminated_congr ?_ fun j hj => h.kind_old hs hj
  rw [h.instsOf]
  split
  · rename_i heq
    have hne := hc heq
    rw [heq, h.parts, List.getLast?_append_of_ne_nil _ (List.cons_ne_nil _ _), List.getLast?_append_of_ne_nil _ hne,
      List.getLast?_cons_of_ne_nil hne]
  · rfl

theorem CodeStep.isTerminated (h : f.CodeStep f') (hs : f.Sound) {c : BlockId} (hc : Edit.isTerminated f c = true) :
    Edit.isTerminated f' c = true := by
  cases h with
  | values h =>
    rw [isTerminated_congr (congrArg _ (congrArg BlockData.insts (h.block c))) fun j _ =>
      congrArg InstData.kind (h.inst j)]
    exact hc
  | append hfits hphi hgives hvalued hcreate hpush hedges =>
    rename_i f₁ f₂ kind operands hasResult b i
    obtain ⟨hopen, -, hput⟩ := put_append hs hvalued hcreate hpush hedges
    rw [hput.isTerminated hs]
    · exact hc
    · rintro rfl
      rw [hc] at hopen
      cases hopen

theorem BuildStep.isTerminated (h : f.BuildStep f') (hs : f.Sound) {c : BlockId} (hc : Edit.isTerminated f c = true) :
    Edit.isTerminated f' c = true := by
  cases h with
  | code h => exact h.isTerminated hs hc
  | block h =>
    rw [isTerminated_congr (congrArg _ (sameBlock_createBlock h c).insts)]
    · exact hc
    · obtain ⟨-, rfl⟩ := Edit.createBlock_spec h
      exact fun _ _ => rfl
  | phi hcreate hinsert =>
    obtain ⟨-, hput⟩ := put_phi hs hcreate hinsert
    rw [hput.isTerminated hs]
    · exact hc
    · -- the terminator is no phi, so it stands behind the phis
      rintro rfl hnil
      have hparts := hput.parts
      rw [hnil, List.append_nil] at hparts
      unfold Edit.isTerminated at hc
      rw [hparts] at hc
      split at hc
      · rename_i t ht
        have hphi := isPhi_of_mem_phis f (List.mem_of_getLast? ht)
        rw [InstKind.not_isPhi hc] at hphi
        cases hphi
      · cases hc
  | slot hphi hpush =>
    obtain ⟨hkind, -, -, -, hblock, -, -⟩ := pushOperand_same hpush
    rw [isTerminated_congr (congrArg _ (congrArg BlockData.insts (hblock c))) fun j _ => hkind j]
    exact hc

theorem BuildSteps.isTerminated (h : f.BuildSteps f') (hs : f.Sound) (hc : Edit.isTerminated f c = true) :
    Edit.isTerminated f' c = true := by
  have hboth : f'.Sound ∧ Edit.isTerminated f' c = true := by
    induction h with
    | refl => exact ⟨hs, hc⟩
    | tail _ hstep ih => exact ⟨hstep.sound ih.1, hstep.isTerminated ih.1 ih.2⟩
  exact hboth.2

end Function

end SsaCompiler
