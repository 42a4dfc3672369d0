import SsaCompiler.Proofs.Graph.Frontier
import SsaCompiler.Proofs.Ir.Additions
import SsaCompiler.Proofs.Ir.SimplifiedRuns

/-!
# What passes keep

The passes are built from a few edits. A property that these edits keep, whatever else holds of the function, is
kept by every successful pass. Soundness is such a property: every edit keeps the use index, the placement of
instructions and the layout.
-/

set_option autoImplicit false

namespace SsaCompiler

namespace Edit

open Edits

variable {f f' : Function} {P : Function → Prop}

/-- Asking a question changes nothing. -/
theorem preserves_ask {α : Type} (question : Function → Outcome α) : Preserves P (ask question) := by
  intro f f' a hf h
  obtain ⟨-, rfl⟩ := ask_eq_ok h
  exact hf

/-- Adding up the counts of an action changes what the action changes. -/
theorem preserves_countOver {blocks : List BlockId} {action : BlockId → Edit Nat}
    (h : ∀ b ∈ blocks, Preserves P (action b)) : Preserves P (countOver blocks action) :=
  .foldlM (fun _ b hb => .bind (h b hb) fun _ => .pure _) 0

/-! ## Simplification -/

/-- A property that the edits of simplification keep. -/
structure Simplified (P : Function → Prop) : Prop where
  foldBranch : ∀ b, Preserves P (foldBranch b)
  elideBlock : ∀ entry b, Preserves P (elideBlock entry b)
  removePredAt : ∀ b idx, Preserves P (removePredAt b idx)
  removeBlocks : ∀ doomed, Preserves P (removeBlocks doomed)
  removeSinglePhi : ∀ b phi, Preserves P (removeSinglePhi b phi)

namespace Simplified

variable (h : Simplified P)

include h

/-- Folding branches. -/
theorem foldBranches : Preserves P foldBranches := .bind .get fun _ => preserves_countOver fun b _ => h.foldBranch b

/-- Splicing out empty blocks. -/
theorem elideEmptyBlocks : Preserves P elideEmptyBlocks :=
  .bind (preserves_ask _) fun entry => .bind .get fun _ => preserves_countOver fun b _ => h.elideBlock entry b

/-- Cutting the edges from an unreachable block. -/
theorem cutEdges (order : ReversePostorder) (b : BlockId) : Preserves P (cutEdges order b) := by
  refine .bind (preserves_ask _) fun succs => .forM fun succ _ => ?_
  split
  · refine .bind .get fun f => ?_
    split
    · exact h.removePredAt _ _
    · exact .pure _
  · exact .pure _

/-- Removing the unreachable blocks. -/
theorem pruneUnreachable : Preserves P pruneUnreachable := by
  refine .bind (preserves_ask _) fun order => .bind .get fun f => ?_
  dsimp only
  split
  · exact .pure _
  · exact .bind (.forM fun b _ => h.cutEdges order b) fun _ => .bind (h.removeBlocks _) fun _ => .pure _

/-- Replacing the phis of blocks with one predecessor. -/
theorem removeSinglePredPhis : Preserves P removeSinglePredPhis := by
  refine .bind .get fun f => preserves_countOver fun b _ => .bind .get fun g => ?_
  split
  · exact .pure _
  · exact .bind (.forM fun phi _ => h.removeSinglePhi b phi) fun _ => .pure _

/-- One repetition of the steps. -/
theorem simplifyCycle : Preserves P simplifyCycle :=
  .bind h.foldBranches fun _ => .bind h.elideEmptyBlocks fun _ => .bind h.pruneUnreachable fun _ =>
    .bind h.removeSinglePredPhis fun _ => .pure _

/-- Any number of repetitions. -/
theorem simplifyWithin (limit : Nat) : Preserves P (simplifyWithin limit) := by
  induction limit with
  | zero => exact .pure _
  | succ limit ih =>
    unfold Edit.simplifyWithin
    refine .bind h.simplifyCycle fun count => ?_
    split
    · exact .pure _
    · exact .bind ih fun _ => .pure _

/-- Simplification. -/
theorem simplify : Preserves P simplify := .bind .get fun _ => h.simplifyWithin _

end Simplified

/-! ## Promotion -/

/-- Creating a phi and putting it into a block. -/
def newPhi (b : BlockId) (operands : List ValueId) : Edit InstId := do
  let phi ← createInst .phi operands true
  insertPhi b phi
  return phi

/-- A property that the edits of all passes keep. Phis are only put into blocks that hold instructions. -/
structure Stable (P : Function → Prop) : Prop extends Simplified P where
  removeInst : ∀ i, Preserves P (removeInst i)
  replaceAllUses : ∀ old new, Preserves P (replaceAllUses old new)
  setOperand : ∀ i slot v, Preserves P (setOperand i slot v)
  constValue : ∀ c, Preserves P (constValue c)
  newPhi : ∀ b operands ⦃f f' : Function⦄ ⦃phi⦄, P f → f.instsOf b ≠ [] →
    (newPhi b operands).run f = (.ok phi, f') → P f'

variable {b : BlockId}

variable {phi : InstId} {operands : List ValueId} {count : Nat}

/-- Putting a phi into a block leaves no block empty that was not. -/
theorem instsOf_newPhi (h : (newPhi b operands).run f = (.ok phi, f')) {c : BlockId} (hc : f.instsOf c ≠ []) :
    f'.instsOf c ≠ [] := by
  obtain ⟨i, f₁, hcreate, h₁⟩ := bind_eq_ok h
  obtain ⟨⟨⟩, f₂, hinsert, hpure⟩ := bind_eq_ok h₁
  cases hpure
  obtain ⟨-, -, -, -, hbecomes, -⟩ := place_spec (place_of_insertPhi hinsert).2
  have hsame : f₁.block c = f.block c := (created_createInst hcreate).2.block c
  rw [Function.instsOf, hbecomes.block]
  by_cases hcb : c = b
  · subst hcb
    rw [Function.update_self]
    intro hnil
    have hlength := congrArg List.length hnil
    change ((f₁.block c).insts.insertIdx _ _).length = 0 at hlength
    rw [List.length_insertIdx] at hlength
    split at hlength
    · omega
    · refine hc ?_
      rw [Function.instsOf, ← hsame]
      exact List.length_eq_zero_iff.1 hlength
  · rw [Function.update_of_ne hcb, hsame]
    exact hc

/-- All blocks of frontiers hold instructions. -/
def Landed (tree : DominatorTree) (f : Function) : Prop := ∀ x, ∀ y ∈ tree.frontierOf x, f.instsOf y ≠ []

/-- The blocks of frontiers were asked for their terminators. -/
theorem landed_of_ofCfg {tree : DominatorTree} (h : DominatorTree.ofCfg f.cfg = .ok tree) : Landed tree f := by
  intro x y hy
  obtain ⟨hr, -⟩ := DominatorTree.ofCfg_parts h
  obtain ⟨succs, hsuccs⟩ := ReversePostorder.succs_of_mem_order hr (DominatorTree.mem_order_of_mem_frontierOf h hy)
  obtain ⟨t, ht, -⟩ := Outcome.bind_eq_ok.1 hsuccs
  obtain ⟨hlast, -⟩ := terminator_eq_ok.1 ht
  exact List.ne_nil_of_mem (List.mem_of_getLast? hlast)

namespace Stable

variable (h : Stable P)

include h

/-- Placing the phis of a slot. -/
theorem placePhis {tree : DominatorTree} {zeroId : ValueId} {limit : Nat} :
    ∀ {placed queued : NatSet} {pending : List BlockId},
      Preserves (fun f => P f ∧ Landed tree f) (placePhis tree zeroId limit placed queued pending) := by
  induction limit with
  | zero =>
    intro placed queued pending
    unfold Edit.placePhis
    exact .pure _
  | succ limit ih =>
    intro placed queued pending
    cases pending with
    | nil =>
      unfold Edit.placePhis
      exact .pure _
    | cons x rest =>
      unfold Edit.placePhis
      dsimp only
      refine .bind (.mapM fun y hy => .bind .get fun g f f' phi hf hrun => ?_) fun phis => .bind ih fun _ => .pure _
      have hy' := hf.2 x y (List.mem_of_mem_filter hy)
      exact ⟨h.newPhi y _ hf.1 hy' hrun, fun z w hw => instsOf_newPhi hrun (hf.2 z w hw)⟩

/-- Placing the phis of all slots. -/
theorem placeAllPhis (tree : DominatorTree) (slots : List ValueId) :
    Preserves (fun f => P f ∧ Landed tree f) (placeAllPhis tree slots) := by
  refine .bind (.mapM fun _ _ => preserves_ask _) fun stores => .bind (fun f f' _ hf hrun => ?_) fun zeroId => ?_
  · refine ⟨h.constValue 0 hf.1 hrun, fun x y hy => ?_⟩
    rw [Function.instsOf, (internValue_spec rfl hrun).1.block]
    exact hf.2 x y hy
  · exact .bind .get fun f => .bind (.mapM fun e _ => .bind h.placePhis fun _ => .pure _) fun _ => .pure _

/-- Carrying slot values over an instruction. -/
theorem renameInst (slots : List ValueId) (phiSlot : List (InstId × Nat)) (current : SlotValues) (i : InstId) :
    Preserves P (renameInst slots phiSlot current i) := by
  refine .bind .get fun f => ?_
  split
  · split
    · exact .bind (preserves_ask _) fun _ => .pure _
    · exact .pure _
  · refine .bind (preserves_ask _) fun base => ?_
    split
    · refine .bind (preserves_ask _) fun loaded => .bind (h.replaceAllUses _ _) fun _ => ?_
      exact .bind (h.removeInst i) fun _ => .pure _
    · exact .pure _
  · refine .bind (preserves_ask _) fun base => ?_
    split
    · exact .bind (preserves_ask _) fun data => .bind (h.removeInst i) fun _ => .pure _
    · exact .pure _
  · exact .pure _

/-- Entering slot values into the phis of a successor. -/
theorem fillPhis (phiSlot : List (InstId × Nat)) (current : SlotValues) (block succ : BlockId) :
    Preserves P (fillPhis phiSlot current block succ) := by
  refine .bind .get fun f => .forM fun phi _ => ?_
  split
  · exact .forM fun slot _ => h.setOperand _ _ _
  · exact .pure _

/-- Carrying slot values from block to block. -/
theorem renameFrom (slots : List ValueId) (phiSlot : List (InstId × Nat)) (visited : Array Bool)
    (pending : List (BlockId × SlotValues)) : Preserves P (renameFrom slots phiSlot visited pending) := by
  fun_induction Edit.renameFrom slots phiSlot visited pending with
  | case1 => exact .pure _
  | case2 visited block current rest hlt hv ih => exact ih
  | case3 visited block current rest hlt hv ih =>
    refine .bind .get fun f => .bind (.foldlM (fun _ i _ => h.renameInst slots phiSlot _ i) current) fun last => ?_
    refine .bind (preserves_ask _) fun succs => .bind (.forM fun succ _ => h.fillPhis phiSlot last block succ) ?_
    exact fun _ => ih last succs
  | case4 => exact .throw _

/-- Removing the phis on which nothing depends. -/
theorem removeDeadPhis (phis : List InstId) : Preserves P (removeDeadPhis phis) := by
  refine .bind (preserves_ask _) fun live => .bind (h.constValue 0) fun zeroId => ?_
  refine .bind (.forM fun phi _ => .bind .get fun f => .forM fun slot _ => h.setOperand _ _ _) fun _ => ?_
  exact .bind (.forM fun phi _ => h.removeInst phi) fun _ => .pure _

/-- Promotion. -/
theorem promote : Preserves P promote := by
  refine .bind h.simplify fun cfgSteps => .bind (preserves_ask _) fun slots => ?_
  dsimp only
  split
  · exact .pure _
  intro f f' stats hf hrun
  obtain ⟨tree, hexact, hrun₁⟩ := ask_bind_eq_ok hrun
  obtain ⟨phiSlot, f₂, hplace, hrun₂⟩ := bind_eq_ok hrun₁
  have hf₂ := (h.placeAllPhis tree _ ⟨hf, landed_of_ofCfg hexact⟩ hplace).1
  refine Preserves.bind (h.constValue 0) (fun zeroId => .bind (preserves_ask _) fun entry => .bind .get fun g => ?_) hf₂ hrun₂
  refine .bind (h.renameFrom _ _ _ _) fun _ => .bind (.forM fun slot _ => h.removeInst _) fun _ => ?_
  exact .bind (h.removeDeadPhis _) fun _ => .pure _

end Stable

/-- Replacing a phi by its operand is replacing uses and removing an instruction. -/
theorem preserves_removeSinglePhi (hreplace : ∀ old new, Preserves P (replaceAllUses old new))
    (hremove : ∀ i, Preserves P (removeInst i)) (b : BlockId) (phi : InstId) : Preserves P (removeSinglePhi b phi) := by
  refine .bind .get fun f => ?_
  split
  · split
    · exact .throw _
    · dsimp only
      split
      · exact .bind (.throw _) fun _ => .bind (hreplace _ _) fun _ => hremove phi
      · exact .bind (hreplace _ _) fun _ => hremove phi
  · exact .throw _

/-! ## Soundness -/

/-- Making every slot that reads one value read another one keeps a function sound. -/
theorem sound_replaceAllUses {old new : ValueId} (hs : f.Sound) (h : (replaceAllUses old new).run f = (.ok count, f')) :
    f'.Sound := by
  by_cases hne : old = new
  · unfold replaceAllUses at h
    rw [if_pos hne] at h
    cases h
    exact hs
  · obtain ⟨-, -, hbecomes, hindexed⟩ := replaceAllUses_spec hne hs.indexed h
    refine hs.becomes_insts hbecomes hindexed (fun _ => rfl) (fun i r hr => hs.gives i r hr)
      (fun c i hi => ⟨?_, hs.bounded c i hi⟩) fun _ => rfl
    rw [List.length_map]
    exact hs.fits c i hi

theorem sound_foldBranch (b : BlockId) : Preserves Function.Sound (foldBranch b) := by
  intro f f' count hs h
  rcases foldBranch_spec hs h with ⟨rfl, -⟩ | ⟨-, hs', -⟩
  · exact hs
  · exact hs'

/-- Splicing out a block removes a predecessor of its target, moves its edges and removes the block. -/
theorem moving_of_elideBlock {entry : BlockId} (hs : f.Sound) (h : (elideBlock entry b).run f = (.ok count, f')) :
    f = f' ∨ ∃ target idx carried f₁ f₂, (removePredAt target idx).run f = (.ok (), f₁) ∧
      Moving f₁ f₂ b target carried (f.preds b) ∧ (removeBlocks [b]).run f₂ = (.ok (), f') := by
  rcases elideBlock_eq_ok h with ⟨rfl, -⟩ | ⟨j, target, idx, carried, f₁, f₂, -, -, -, hinsts, hkind, hne, -, -, hfst,
    -, hremove, hmove, hblocks⟩
  · exact .inl rfl
  refine .inr ⟨target, idx, carried, f₁, f₂, hremove, ?_, hblocks⟩
  have htarget : target < f.blocks.size := by
    refine hs.bounded b j (hinsts ▸ List.mem_cons_self) target ?_
    rw [hkind]
    exact List.mem_cons_self
  obtain ⟨-, -, -, hbecomes, -⟩ := removePredAt_spec hs hremove
  have hphis : ∀ e ∈ carried, (f₁.kind e.1).isPhi = true := by
    intro e he
    have hin : e.1 ∈ f.phis target := hfst ▸ List.mem_map_of_mem he
    have hkind₁ : f₁.kind e.1 = f.kind e.1 := by
      unfold Function.kind
      rw [hbecomes.inst, withoutSlot, if_pos hin]
    rw [hkind₁]
    exact f.isPhi_of_mem_phis hin
  have hnodup : (carried.map Prod.fst).Nodup := by
    rw [hfst]
    exact (List.takeWhile_sublist _).nodup (hs.nodup target)
  exact forM_moveEdge_spec (sound_removePredAt hs hremove) hne (hbecomes.blocks_size ▸ htarget) hphis hnodup hmove

theorem sound_elideBlock (entry b : BlockId) : Preserves Function.Sound (elideBlock entry b) := by
  intro f f' count hs h
  rcases moving_of_elideBlock hs h with rfl | ⟨target, idx, carried, f₁, f₂, -, hmoved, hblocks⟩
  · exact hs
  · exact sound_removeBlocks hmoved.sound hblocks

theorem sound_constValue (c : Word) : Preserves Function.Sound (constValue c) := by
  intro f f' v hs h
  exact (internValue_spec rfl h).1.sound hs

/-- Putting a new phi into a block keeps a function sound. -/
theorem sound_newPhi {f₁ : Function} (hs : f.Sound) (hcreate : (createInst .phi operands true).run f = (.ok phi, f₁))
    (hinsert : (insertPhi b phi).run f₁ = (.ok (), f')) : f'.Sound := by
  obtain ⟨-, hcreated⟩ := created_createInst hcreate
  exact sound_insertPhi (hcreated.sound hs fun _ => rfl) hinsert

/-- The edits of all passes keep functions sound. -/
theorem stable_sound : Stable Function.Sound where
  foldBranch := sound_foldBranch
  elideBlock := sound_elideBlock
  removePredAt _ _ _ _ _ hs h := sound_removePredAt hs h
  removeBlocks _ _ _ _ hs h := sound_removeBlocks hs h
  removeSinglePhi := preserves_removeSinglePhi (fun _ _ _ _ _ hs h => sound_replaceAllUses hs h)
    fun _ _ _ _ hs h => sound_removeInst hs h
  removeInst _ _ _ _ hs h := sound_removeInst hs h
  replaceAllUses _ _ _ _ _ hs h := sound_replaceAllUses hs h
  setOperand _ _ _ _ _ _ hs h := sound_setOperand hs h
  constValue := sound_constValue
  newPhi b operands f f' phi hs _ h := by
    obtain ⟨i, f₁, hcreate, h₁⟩ := bind_eq_ok h
    obtain ⟨⟨⟩, f₂, hinsert, hpure⟩ := bind_eq_ok h₁
    cases hpure
    exact sound_newPhi hs hcreate hinsert

/-- The edits of all passes keep the outline of a function: they bring in results, constants, phis and terminators. -/
theorem stable_outline {V : ValueKind → Prop} {K : InstKind → Prop} (hinst : ∀ i, V (.inst i)) (hconst : ∀ c, V (.const c))
    (hphi : K .phi) (hends : ∀ kind : InstKind, kind.isTerminator = true → K kind) (f₀ : Function) :
    Stable (f₀.Outlines V K ·) where
  foldBranch b := brings_foldBranch hends b f₀
  elideBlock entry b := brings_elideBlock hends entry b f₀
  removePredAt b idx := brings_removePredAt b idx f₀
  removeBlocks doomed := brings_removeBlocks doomed f₀
  removeSinglePhi := preserves_removeSinglePhi (fun old new => brings_replaceAllUses old new f₀)
    fun i => brings_removeInst i f₀
  removeInst i := brings_removeInst i f₀
  replaceAllUses old new := brings_replaceAllUses old new f₀
  setOperand i slot v := brings_setOperand i slot v f₀
  constValue c := brings_internValue (hconst c) f₀
  newPhi _ _ _ _ _ hf _ h := Preserves.bind (brings_createInst hphi _ (fun _ => hinst) f₀)
    (fun _ => .bind (brings_insertPhi _ _ f₀) fun _ => .pure _) hf h

end Edit

end SsaCompiler
