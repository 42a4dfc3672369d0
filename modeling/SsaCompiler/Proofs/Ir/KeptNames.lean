import SsaCompiler.Proofs.Text.SpelledNames

/-!
# Names through the passes

No pass names anything: values and blocks have the names that they were read with, and what passes bring in, constants and
the results of phis, has none. So names that are made of name characters and apart stay so (`Function.Produced.spelled`).
-/

set_option autoImplicit false

namespace SsaCompiler

open Edits

namespace Function

/-- The values and the blocks of two functions have the same names. -/
structure SameNames (f f' : Function) : Prop where
  values : ∀ v, (f'.value v).name = (f.value v).name
  blocks : ∀ b, f'.blockName b = f.blockName b

variable {f f' f'' : Function}

theorem SameNames.refl (f : Function) : f.SameNames f := ⟨fun _ => rfl, fun _ => rfl⟩

theorem SameNames.trans (h : f.SameNames f') (h' : f'.SameNames f'') : f.SameNames f'' :=
  ⟨fun v => (h'.values v).trans (h.values v), fun b => (h'.blocks b).trans (h.blocks b)⟩

/-- The same names are as well spelled. -/
theorem SameNames.spelled (h : f.SameNames f') (hf : f.Spelled) : f'.Spelled where
  values v name hv := hf.values v name (h.values v ▸ hv)
  blocks b := h.blocks b ▸ hf.blocks b
  apart v w name hv hw := hf.apart v w name (h.values v ▸ hv) (h.values w ▸ hw)

end Function

namespace Edit

/-- An edit leaves all names as they are. -/
abbrev KeepsNames {α : Type} (edit : Edit α) : Prop := ∀ f₀ : Function, Preserves (f₀.SameNames ·) edit

variable {f f' : Function}

/-- An edit that changes no marks and does not rename blocks. -/
theorem KeepsMarks.keepsNames {α : Type} {edit : Edit α} (h : KeepsMarks edit)
    (hblock : ∀ {f f' : Function} {a : α}, edit.run f = (.ok a, f') → ∀ b, (f'.block b).name = (f.block b).name) :
    KeepsNames edit := fun _ _ _ _ hf hrun => hf.trans ⟨h.name_eq hrun, hblock hrun⟩

/-- A block that is changed, but not renamed. -/
theorem name_update {b : BlockId} {d : BlockData} (h : d.name = (f.block b).name) (c : BlockId) :
    (Function.update f.block b d c).name = (f.block c).name := by
  rw [Function.update_apply]
  split
  · rename_i hc
    rw [h, hc]
  · rfl

theorem keepsNames_modifyValue (v : ValueId) {change : ValueData → ValueData}
    (h : ∀ d, ((change d).live, (change d).name) = (d.live, d.name)) : KeepsNames (modifyValue v change) :=
  (keepsMarks_modifyValue v h).keepsNames fun hrun b => by
    obtain ⟨-, rfl⟩ := modifyValue_eq_ok hrun
    rfl

theorem keepsNames_modifyInst (i : InstId) (change : InstData → InstData) : KeepsNames (modifyInst i change) :=
  (keepsMarks_modifyInst i change).keepsNames fun hrun b => by
    obtain ⟨-, rfl⟩ := modifyInst_eq_ok hrun
    rfl

theorem keepsNames_modifyBlock (b : BlockId) (change : BlockData → BlockData) (h : ∀ d, (change d).name = d.name) :
    KeepsNames (modifyBlock b change) :=
  (keepsMarks_modifyBlock b change).keepsNames fun hrun c => by
    rw [(modifyBlock_spec hrun).2.2.1.block]
    exact name_update (h _) c

theorem keepsNames_createInst (kind : InstKind) (operands : List ValueId) (hasResult : Bool) :
    KeepsNames (createInst kind operands hasResult) :=
  (keepsMarks_createInst kind operands hasResult).keepsNames fun hrun b =>
    congrArg BlockData.name ((created_createInst hrun).2.block b)

theorem keepsNames_place (b : BlockId) (pos : Nat) (i : InstId) : KeepsNames (place b pos i) :=
  (keepsMarks_place b pos i).keepsNames fun {f f' _} hrun c => by
    obtain ⟨-, -, -, -, hbecomes, -⟩ := place_spec hrun
    rw [hbecomes.block]
    exact name_update (by rfl) c

theorem keepsNames_setOperand (i : InstId) (slot : Nat) (v : ValueId) : KeepsNames (setOperand i slot v) :=
  (keepsMarks_setOperand i slot v).keepsNames fun hrun b => by
    obtain ⟨-, -, -, hbecomes, -⟩ := setOperand_spec hrun
    rw [hbecomes.block]

theorem keepsNames_replaceAllUses (old new : ValueId) : KeepsNames (replaceAllUses old new) := by
  intro f₀
  unfold replaceAllUses
  split
  · exact .pure _
  · refine .bind .get fun f => .bind (keepsNames_modifyValue old (fun _ => by rfl) f₀) fun _ => ?_
    refine .bind (.forM fun u _ => keepsNames_modifyInst _ _ f₀) fun _ => ?_
    exact .bind (keepsNames_modifyValue new (fun _ => by rfl) f₀) fun _ => .pure _

theorem keepsNames_internValue {kind : ValueKind} (hkind : kind.isComputed = false) : KeepsNames (internValue kind) :=
  (keepsMarks_internValue kind).keepsNames fun hrun b => congrArg BlockData.name ((internValue_spec hkind hrun).1.block b)

/-- Removing an instruction marks its result as dead, but leaves its name. -/
theorem keepsNames_removeInst (i : InstId) : KeepsNames (removeInst i) := by
  intro f₀ f f' _ hf hrun
  refine hf.trans ⟨fun v => (marks_removeInst hrun v).2, fun b => ?_⟩
  obtain ⟨-, -, -, hbecomes, -⟩ := removeInst_spec hrun
  rw [Function.blockName, hbecomes.block]
  unfold blocksWithout
  split <;> rfl

theorem keepsNames_removePredAt (b : BlockId) (idx : Nat) : KeepsNames (removePredAt b idx) := fun f₀ =>
  preserves_removePredAt (fun i slot => (keepsMarks_removeOperand i slot).keepsNames (fun hrun c => by
    obtain ⟨-, -, -, hbecomes, -⟩ := removeOperand_spec hrun
    rw [hbecomes.block]) f₀) (fun c change h => keepsNames_modifyBlock c change h f₀) b idx

theorem keepsNames_removeBlocks (doomed : List BlockId) : KeepsNames (removeBlocks doomed) := fun f₀ =>
  preserves_removeBlocks (fun i => (keepsMarks_detachOperands i).keepsNames (fun hrun c => by
    rw [(detachOperands_spec hrun).2.2.1.block]) f₀) (fun i => keepsNames_removeInst i f₀)
    (fun b change h => keepsNames_modifyBlock b change h f₀) (fun _ _ hf => hf.trans ⟨fun _ => rfl, fun _ => rfl⟩) doomed

theorem keepsNames_foldBranch (b : BlockId) : KeepsNames (foldBranch b) := fun f₀ =>
  preserves_foldBranch (preserves_replaceTerminator (fun i => keepsNames_removeInst i f₀)
    fun _ hf hcreate hplace => keepsNames_place _ _ _ f₀ (keepsNames_createInst _ _ _ f₀ hf hcreate) hplace)
    (fun c idx => keepsNames_removePredAt c idx f₀) b

/-- Moving an edge changes a terminator, a list of predecessors and phis. -/
theorem keepsNames_moveEdge (b target : BlockId) (carried : List (InstId × ValueId)) (p : BlockId) :
    KeepsNames (moveEdge b target carried p) := by
  intro f₀
  have hredirect : ∀ term, KeepsNames (redirectTarget term b target) := fun term =>
    (keepsMarks_redirectTarget term b target).keepsNames fun hrun c => by
      rcases redirectTarget_spec hrun with ⟨-, rfl⟩ | ⟨kind, -, -, -, -, hbecomes, -⟩
      · rfl
      · rw [hbecomes.block]
  have hpush : ∀ phi v, KeepsNames (pushOperand phi v) := fun phi v =>
    (keepsMarks_pushOperand phi v).keepsNames fun hrun c => by
      obtain ⟨-, -, -, hbecomes, -⟩ := pushOperand_spec hrun
      rw [hbecomes.block]
  refine .bind (preserves_ask _) fun term => .bind (hredirect term f₀) fun found => ?_
  split
  · exact .bind (keepsNames_modifyBlock target _ (fun _ => by rfl) f₀) fun _ => .forM fun e _ => hpush e.1 e.2 f₀
  · exact .bind .get fun _ => .throw _

theorem keepsNames_elideBlock (entry b : BlockId) : KeepsNames (elideBlock entry b) := by
  intro f₀ f f' _ hf hrun
  rcases elideBlock_eq_ok hrun with ⟨rfl, -⟩ | ⟨j, target, idx, carried, f₁, f₂, -, -, -, -, -, -, -, -, -, -, hremove, hmove,
    hblocks⟩
  · exact hf
  have hmoved := Preserves.forM (fun p _ => keepsNames_moveEdge b target carried p f₀)
    (keepsNames_removePredAt target idx f₀ hf hremove) hmove
  exact keepsNames_removeBlocks [b] f₀ hmoved hblocks

/-- The edits of all passes keep names. -/
theorem stable_sameNames (f₀ : Function) : Stable (f₀.SameNames ·) where
  foldBranch b := keepsNames_foldBranch b f₀
  elideBlock entry b := keepsNames_elideBlock entry b f₀
  removePredAt b idx := keepsNames_removePredAt b idx f₀
  removeBlocks doomed := keepsNames_removeBlocks doomed f₀
  removeSinglePhi := preserves_removeSinglePhi (fun old new => keepsNames_replaceAllUses old new f₀)
    fun i => keepsNames_removeInst i f₀
  removeInst i := keepsNames_removeInst i f₀
  replaceAllUses old new := keepsNames_replaceAllUses old new f₀
  setOperand i slot v := keepsNames_setOperand i slot v f₀
  constValue _ := keepsNames_internValue rfl f₀
  newPhi b operands f f' phi hf _ hrun := by
    obtain ⟨i, f₁, hcreate, hrun₁⟩ := bind_eq_ok hrun
    obtain ⟨⟨⟩, f₂, hinsert, hpure⟩ := bind_eq_ok hrun₁
    cases hpure
    exact keepsNames_place _ _ _ f₀ (keepsNames_createInst _ _ _ f₀ hf hcreate) (place_of_insertPhi hinsert).2

end Edit

/-- In functions that come from text, names are made of name characters, and those of values are apart. -/
theorem Function.Produced.spelled {f : Function} (h : f.Produced) : f.Spelled := by
  induction h with
  | read hread hmem => exact (Module.spelled_parse hread).2 _ hmem
  | pass pass _ hrun ih => exact (pass.preserves (Edit.stable_sameNames _) (.refl _) hrun).spelled ih

end SsaCompiler
