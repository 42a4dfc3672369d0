import SsaCompiler.Proofs.Ir.TendedRecords

/-!
# Functions under promotion

While slots are promoted, a function differs from what it was in four ways: phis were added behind those of a block,
instructions were taken out, values are read in the place of others, and there are more values. `Reshaped` says that
these are all the differences, and each edit of the promotion adds to one of them.
-/

set_option autoImplicit false

namespace SsaCompiler

/-- A list in two parts is cut between them. -/
theorem takeWhile_dropWhile_append {α : Type} {p : α → Bool} {front back : List α}
    (hfront : ∀ a ∈ front, p a = true) (hback : ∀ a ∈ back, p a = false) :
    (front ++ back).takeWhile p = front ∧ (front ++ back).dropWhile p = back := by
  refine ⟨?_, ?_⟩
  · rw [List.takeWhile_append_of_pos hfront]
    refine (congrArg _ ?_).trans (List.append_nil _)
    rw [List.takeWhile_eq_nil_iff]
    intro hlt hp
    rw [hback _ (List.get_mem _ _)] at hp
    cases hp
  · rw [List.dropWhile_append_of_pos hfront, List.dropWhile_eq_self_iff]
    intro hlt hp
    rw [hback _ (List.getElem_mem hlt)] at hp
    cases hp

namespace Function

/-- A function that has become another one by adding phis `new`, taking out the instructions that are `gone`, and
reading `stand v` in the place of `v`. -/
structure Reshaped (f c : Function) (new : BlockId → List InstId) (gone : InstId → Bool)
    (stand : ValueId → ValueId) : Prop where
  sound : c.Sound
  layout : c.layout = f.layout
  blocks_size : c.blocks.size = f.blocks.size
  preds : ∀ b, c.preds b = f.preds b
  insts : ∀ b, c.instsOf b = f.phis b ++ new b ++
    ((f.instsOf b).dropWhile fun i => (f.kind i).isPhi).filter fun i => !gone i
  insts_size : f.insts.size ≤ c.insts.size
  values_size : f.values.size ≤ c.values.size
  kind : ∀ i, i < f.insts.size → c.kind i = f.kind i
  result : ∀ i, i < f.insts.size → c.result? i = f.result? i
  operands : ∀ i, i < f.insts.size → gone i = false → c.operands i = (f.operands i).map stand
  kinds : ∀ v, v < f.values.size → (c.value v).kind = (f.value v).kind
  fresh : ∀ b, ∀ i ∈ new b, f.insts.size ≤ i ∧ c.kind i = .phi

/-- Two functions whose instructions are of the same kinds and give the same values. -/
structure Alike (c c' : Function) : Prop where
  insts_size : c'.insts.size = c.insts.size
  values_size : c'.values.size = c.values.size
  kind : ∀ i, c'.kind i = c.kind i
  result : ∀ i, c'.result? i = c.result? i
  kinds : ∀ v, (c'.value v).kind = (c.value v).kind

theorem Alike.refl (c : Function) : c.Alike c := ⟨rfl, rfl, fun _ => rfl, fun _ => rfl, fun _ => rfl⟩

theorem Alike.trans {c c' c'' : Function} (h : c.Alike c') (h' : c'.Alike c'') : c.Alike c'' :=
  ⟨h'.insts_size.trans h.insts_size, h'.values_size.trans h.values_size, fun i => (h'.kind i).trans (h.kind i),
    fun i => (h'.result i).trans (h.result i), fun v => (h'.kinds v).trans (h.kinds v)⟩

namespace Reshaped

open Edit

variable {f c c' : Function} {new : BlockId → List InstId} {gone : InstId → Bool} {stand : ValueId → ValueId}

theorem refl (hs : f.Sound) : f.Reshaped f (fun _ => []) (fun _ => false) id where
  sound := hs
  layout := rfl
  blocks_size := rfl
  preds _ := rfl
  insts b := by simp [f.phis_append b]
  insts_size := Nat.le_refl _
  values_size := Nat.le_refl _
  kind _ _ := rfl
  result _ _ := rfl
  operands i _ _ := (List.map_id _).symm
  kinds _ _ := rfl
  fresh b i hi := absurd hi List.not_mem_nil

variable {b : BlockId} {gone' : InstId → Bool} {stand' : ValueId → ValueId}

section

variable (h : f.Reshaped c new gone stand)

include h

theorem congr (hgone : ∀ i, gone' i = gone i) (hstand : ∀ v, stand' v = stand v) : f.Reshaped c new gone' stand' := by
  rw [funext hgone, funext hstand]
  exact h

/-- The phis of a block and what stands behind them. -/
theorem phis_eq (hs : f.Sound) (hfirst : f.PhisFirst) (hb : b ∈ f.layout) :
    c.phis b = f.phis b ++ new b ∧ (c.instsOf b).dropWhile (fun i => (c.kind i).isPhi) =
      ((f.instsOf b).dropWhile fun i => (f.kind i).isPhi).filter fun i => !gone i := by
  unfold Function.phis
  rw [h.insts]
  refine takeWhile_dropWhile_append (fun i hi => ?_) fun i hi => ?_
  · rcases List.mem_append.1 hi with hi | hi
    · obtain ⟨hin, hphi⟩ := (hfirst.mem_phis hb).1 hi
      rw [h.kind i (hs.lt_insts_size hin)]
      exact hphi
    · rw [(h.fresh b i hi).2]
      rfl
  · obtain ⟨hdrop, -⟩ := List.mem_filter.1 hi
    have hin := (List.dropWhile_sublist _).subset hdrop
    rw [h.kind i (hs.lt_insts_size hin)]
    by_contra hphi
    have hphis := (hfirst.mem_phis hb).2 ⟨hin, by simpa using hphi⟩
    have hnodup := hs.nodup b
    rw [← f.phis_append b, List.nodup_append] at hnodup
    exact hnodup.2.2 i hphis i hdrop rfl

/-- A function with more values. -/
theorem moreValues (hmore : c.MoreValues c') : f.Reshaped c' new gone stand where
  sound := hmore.sound h.sound
  layout := hmore.layout.trans h.layout
  blocks_size := hmore.blocks_size.trans h.blocks_size
  preds b := by
    unfold Function.preds
    rw [hmore.block]
    exact h.preds b
  insts b := by
    unfold instsOf
    rw [hmore.block]
    exact h.insts b
  insts_size := h.insts_size.trans (Nat.le_of_eq hmore.insts_size.symm)
  values_size := h.values_size.trans hmore.values_size
  kind i hi := by
    unfold Function.kind
    rw [hmore.inst]
    exact h.kind i hi
  result i hi := by
    unfold result?
    rw [hmore.inst]
    exact h.result i hi
  operands i hi hg := by
    unfold Function.operands
    rw [hmore.inst]
    exact h.operands i hi hg
  kinds v hv := (hmore.kinds v (Nat.lt_of_lt_of_le hv h.values_size)).trans (h.kinds v hv)
  fresh b i hi := by
    unfold Function.kind
    rw [hmore.inst]
    exact h.fresh b i hi

/-- A function that is like the one before but for its lists of instructions and its operands. -/
theorem next {new' : BlockId → List InstId} (hsound : c'.Sound) (halike : c.Alike c') (hlayout : c'.layout = c.layout)
    (hsize : c'.blocks.size = c.blocks.size) (hpreds : ∀ b, c'.preds b = c.preds b)
    (hinsts : ∀ b, c'.instsOf b =
      f.phis b ++ new' b ++ ((f.instsOf b).dropWhile fun i => (f.kind i).isPhi).filter fun i => !gone' i)
    (hoperands : ∀ i, i < f.insts.size → gone' i = false → c'.operands i = (f.operands i).map stand')
    (hnew : ∀ b, ∀ i ∈ new' b, i ∈ new b) : f.Reshaped c' new' gone' stand' where
  sound := hsound
  layout := hlayout.trans h.layout
  blocks_size := hsize.trans h.blocks_size
  preds b := (hpreds b).trans (h.preds b)
  insts := hinsts
  insts_size := h.insts_size.trans (Nat.le_of_eq halike.insts_size.symm)
  values_size := h.values_size.trans (Nat.le_of_eq halike.values_size.symm)
  kind i hi := (halike.kind i).trans (h.kind i hi)
  result i hi := (halike.result i).trans (h.result i hi)
  operands := hoperands
  kinds v hv := (halike.kinds v).trans (h.kinds v hv)
  fresh b i hi := by
    rw [halike.kind]
    exact h.fresh b i (hnew b i hi)

/-- Making every slot that reads one value read another one. -/
theorem replaceAllUses {old w : ValueId} {count : Nat} (hne : old ≠ w)
    (hrun : (Edit.replaceAllUses old w).run c = (.ok count, c')) :
    f.Reshaped c' new gone (fun v => substituted old w (stand v)) ∧ c.Alike c' ∧
      ∀ i, c'.operands i = (c.operands i).map (substituted old w) := by
  obtain ⟨-, hsize, hbecomes, -⟩ := replaceAllUses_spec hne h.sound.indexed hrun
  have halike : c.Alike c' := ⟨hsize, hbecomes.values_size, fun i => (congrArg InstData.kind (hbecomes.inst i)).trans rfl,
    fun i => (congrArg InstData.result (hbecomes.inst i)).trans rfl, hbecomes.kinds⟩
  have hoperands : ∀ i, c'.operands i = (c.operands i).map (substituted old w) := fun i =>
    congrArg InstData.operands (hbecomes.inst i)
  refine ⟨h.next (sound_replaceAllUses h.sound hrun) halike hbecomes.layout hbecomes.blocks_size
    (fun b => congrArg BlockData.preds (hbecomes.block b))
    (fun b => (congrArg BlockData.insts (hbecomes.block b)).trans (h.insts b)) (fun i hi hg => ?_) fun _ _ hi => hi,
    halike, hoperands⟩
  rw [hoperands, h.operands i hi hg, List.map_map]
  rfl

end

variable {i : InstId}

variable (h : f.Reshaped c new gone stand)

include h

/-- What taking out an instruction does to the blocks and the other instructions. -/
theorem removed (hrun : (removeInst i).run c = (.ok (), c')) :
    c'.Sound ∧ c.Alike c' ∧ c'.layout = c.layout ∧ c'.blocks.size = c.blocks.size ∧
      (∀ b, c'.preds b = c.preds b ∧ c'.instsOf b = (c.instsOf b).filter (· != i)) ∧
      (∀ j, j ≠ i → c'.operands j = c.operands j) ∧ (∀ r, c.result? i = some r → c.uses r = []) ∧
      c'.operands i = [] := by
  obtain ⟨-, hunused, hsize, hbecomes, -⟩ := removeInst_spec hrun
  refine ⟨sound_removeInst h.sound hrun, ⟨hsize, hbecomes.values_size, fun j => ?_, fun j => ?_, hbecomes.kinds⟩,
    hbecomes.layout, hbecomes.blocks_size, fun b => ⟨?_, ?_⟩, fun j hj => ?_, hunused, ?_⟩
  · rw [Function.kind, hbecomes.inst]
    exact Function.proj_update (by rfl) _
  · rw [result?, hbecomes.inst]
    exact Function.proj_update (by rfl) _
  · unfold Function.preds
    rw [hbecomes.block, blocksWithout]
    split <;> rfl
  · unfold instsOf
    rw [hbecomes.block, blocksWithout]
    split
    · rfl
    · rename_i hb
      refine (List.filter_eq_self.2 fun j hj => bne_iff_ne.2 ?_).symm
      rintro rfl
      exact hb ((h.sound.placed b j).1 hj)
  · unfold Function.operands
    rw [hbecomes.inst, Function.update_of_ne hj]
  · unfold Function.operands
    rw [hbecomes.inst, Function.update_self]
    rfl

/-- Taking out an instruction of the function that is no phi. -/
theorem removeOld (hi : i < f.insts.size) (hphi : (f.kind i).isPhi = false)
    (hrun : (removeInst i).run c = (.ok (), c')) : f.Reshaped c' new (fun j => gone j || j == i) stand := by
  obtain ⟨hsound, halike, hlayout, hblocks, hblock, hoperands, -⟩ := h.removed hrun
  refine h.next hsound halike hlayout hblocks (fun b => (hblock b).1) (fun b => ?_) (fun j hj hg => ?_) fun _ _ hj => hj
  · rw [(hblock b).2, h.insts, List.filter_append, List.filter_append, List.filter_filter]
    have hphis : (f.phis b).filter (· != i) = f.phis b := by
      refine List.filter_eq_self.2 fun j hj => bne_iff_ne.2 ?_
      rintro rfl
      rw [f.isPhi_of_mem_phis hj] at hphi
      cases hphi
    have hnew : (new b).filter (· != i) = new b := by
      refine List.filter_eq_self.2 fun j hj => bne_iff_ne.2 ?_
      rintro rfl
      exact absurd hi (Nat.not_lt.2 (h.fresh b j hj).1)
    rw [hphis, hnew]
    refine congrArg _ (List.filter_congr fun j _ => ?_)
    rw [Bool.not_or, Bool.and_comm]
    rfl
  · rw [Bool.or_eq_false_iff, beq_eq_false_iff_ne] at hg
    rw [hoperands j hg.2]
    exact h.operands j hj hg.1

/-- Taking out an added phi. -/
theorem removeNew (hs : f.Sound) (hi : f.insts.size ≤ i)
    (hrun : (removeInst i).run c = (.ok (), c')) : f.Reshaped c' (fun b => (new b).filter (· != i)) gone stand := by
  obtain ⟨hsound, halike, hlayout, hblocks, hblock, hoperands, -⟩ := h.removed hrun
  have hold : ∀ l : List InstId, (∀ j ∈ l, j < f.insts.size) → l.filter (· != i) = l := by
    intro l hl
    refine List.filter_eq_self.2 fun j hj => bne_iff_ne.2 ?_
    rintro rfl
    exact absurd (hl j hj) (Nat.not_lt.2 hi)
  refine h.next hsound halike hlayout hblocks (fun b => (hblock b).1) (fun b => ?_) (fun j hj hg => ?_)
    fun b j hj => (List.mem_filter.1 hj).1
  · rw [(hblock b).2, h.insts, List.filter_append, List.filter_append,
      hold (f.phis b) fun j hj => hs.lt_insts_size ((List.takeWhile_sublist _).subset hj),
      hold _ fun j hj => hs.lt_insts_size ((List.dropWhile_sublist _).subset (List.mem_filter.1 hj).1)]
  · rw [hoperands j (by rintro rfl; exact absurd hj (Nat.not_lt.2 hi))]
    exact h.operands j hj hg

/-- Making a slot of an added phi read another value. -/
theorem setOperand {slot : Nat} {v : ValueId} (hi : f.insts.size ≤ i)
    (hrun : (Edit.setOperand i slot v).run c = (.ok (), c')) :
    f.Reshaped c' new gone stand ∧ c.Alike c' ∧ c'.operands i = (c.operands i).set slot v ∧
      (∀ j, j ≠ i → c'.operands j = c.operands j) ∧ slot < (c.operands i).length := by
  obtain ⟨old, hold, hsize, hbecomes, -⟩ := setOperand_spec hrun
  have halike : c.Alike c' := by
    refine ⟨hsize, hbecomes.values_size, fun j => ?_, fun j => ?_, hbecomes.kinds⟩
    · rw [Function.kind, hbecomes.inst]
      exact Function.proj_update (by rfl) _
    · rw [result?, hbecomes.inst]
      exact Function.proj_update (by rfl) _
  have hother : ∀ j, j ≠ i → c'.operands j = c.operands j := by
    intro j hj
    unfold Function.operands
    rw [hbecomes.inst, Function.update_of_ne hj]
  refine ⟨h.next (sound_setOperand h.sound hrun) halike hbecomes.layout hbecomes.blocks_size
    (fun b => congrArg BlockData.preds (hbecomes.block b))
    (fun b => (congrArg BlockData.insts (hbecomes.block b)).trans (h.insts b)) (fun j hj hg => ?_) fun _ _ hj => hj,
    halike, ?_, hother, (List.getElem?_eq_some_iff.1 hold).1⟩
  · rw [hother j (by rintro rfl; exact absurd hj (Nat.not_lt.2 hi))]
    exact h.operands j hj hg
  · unfold Function.operands
    rw [hbecomes.inst, Function.update_self]
    rfl

/-- Adding a phi behind the phis of a block. -/
theorem insertPhi (hs : f.Sound) (hfirst : f.PhisFirst) (hb : b ∈ f.layout) {operands : List ValueId} {c₁ : Function}
    (hcreate : (createInst .phi operands true).run c = (.ok i, c₁))
    (hinsert : (Edit.insertPhi b i).run c₁ = (.ok (), c')) :
    i = c.insts.size ∧ f.Reshaped c' (Function.update new b (new b ++ [i])) gone stand ∧
      c'.insts.size = c.insts.size + 1 ∧ c'.values.size = c.values.size + 1 ∧
      c'.result? i = some c.values.size ∧ c'.operands i = operands ∧
      (∀ j, j ≠ i → c'.result? j = c.result? j ∧ c'.operands j = c.operands j) ∧
      ∀ v, v < c.values.size → (c'.value v).kind = (c.value v).kind := by
  obtain ⟨rfl, hcreated⟩ := created_createInst hcreate
  obtain ⟨-, hplace⟩ := place_of_insertPhi hinsert
  obtain ⟨-, -, -, hsize, hbecomes, -⟩ := place_spec hplace
  have hinst : ∀ j, c'.inst j = if j = c.insts.size then
      { kind := .phi, operands, result := some c.values.size, block := some b } else c.inst j := by
    intro j
    rw [hbecomes.inst, Function.update_apply]
    split
    · rw [hcreated.inst, Function.update_self]
      rfl
    · rename_i hj
      rw [hcreated.inst, Function.update_of_ne hj]
  have hlt : ∀ j, j < f.insts.size → j ≠ c.insts.size := by
    rintro j hj rfl
    exact absurd hj (Nat.not_lt.2 h.insts_size)
  have hphis : (c₁.phis b).length = (f.phis b ++ new b).length := by
    have hkinds : ∀ j ∈ c.instsOf b, (c₁.kind j).isPhi = (c.kind j).isPhi := by
      intro j hj
      unfold Function.kind
      rw [hcreated.inst, Function.update_of_ne (Nat.ne_of_lt (h.sound.lt_insts_size hj))]
    rw [← (h.phis_eq hs hfirst hb).1]
    unfold Function.phis instsOf
    rw [hcreated.block]
    exact congrArg List.length (takeWhile_congr hkinds)
  have hsame : ∀ j, j ≠ c.insts.size → c'.inst j = c.inst j := fun j hj => by rw [hinst, if_neg hj]
  have hvalues : c'.values.size = c.values.size + 1 := hbecomes.values_size.trans hcreated.values_size
  have hkinds : ∀ v, v < c.values.size → (c'.value v).kind = (c.value v).kind := by
    intro v hv
    rw [hbecomes.kinds, hcreated.kinds v (by rw [hcreated.values_size]; exact Nat.lt_succ_of_lt hv),
      if_neg (Nat.ne_of_lt hv)]
  have hblock : ∀ a, c'.block a = if a = b then
      { c.block b with insts := (c.instsOf b).insertIdx (c₁.phis b).length c.insts.size } else c.block a := by
    intro a
    rw [hbecomes.block, Function.update_apply]
    split
    · unfold instsOf
      rw [hcreated.block]
    · rw [hcreated.block]
  refine ⟨rfl, ⟨sound_insertPhi (hcreated.sound h.sound fun _ => rfl) hinsert, ?_, ?_, fun a => ?_, fun a => ?_, ?_, ?_,
    fun j hj => ?_, fun j hj => ?_, fun j hj hg => ?_, fun v hv => ?_, fun a j hj => ?_⟩, ?_, hvalues, ?_, ?_,
    fun j hj => ⟨?_, ?_⟩, hkinds⟩
  · rw [hbecomes.layout, hcreated.layout, h.layout]
  · rw [hbecomes.blocks_size, hcreated.blocks_size, h.blocks_size]
  · unfold Function.preds
    rw [hblock]
    split
    · rename_i ha
      rw [ha]
      exact h.preds b
    · exact h.preds a
  · change (c'.block a).insts = _
    rw [hblock]
    split
    · rename_i ha
      subst ha
      rw [Function.update_self]
      change (c.instsOf a).insertIdx _ _ = _
      rw [hphis, h.insts, insertIdx_append_length]
      simp
    · rename_i ha
      rw [Function.update_of_ne ha]
      exact h.insts a
  · rw [hsize, hcreated.insts_size]
    exact Nat.le_succ_of_le h.insts_size
  · rw [hvalues]
    exact Nat.le_succ_of_le h.values_size
  · unfold Function.kind
    rw [hsame j (hlt j hj)]
    exact h.kind j hj
  · unfold result?
    rw [hsame j (hlt j hj)]
    exact h.result j hj
  · unfold Function.operands
    rw [hsame j (hlt j hj)]
    exact h.operands j hj hg
  · rw [hkinds v (Nat.lt_of_lt_of_le hv h.values_size)]
    exact h.kinds v hv
  · by_cases hji : j = c.insts.size
    · subst hji
      refine ⟨h.insts_size, ?_⟩
      unfold Function.kind
      rw [hinst, if_pos rfl]
    · have hin : j ∈ new a := by
        by_cases hab : a = b
        · subst hab
          rw [Function.update_self] at hj
          exact (List.mem_append.1 hj).resolve_right fun hin => hji (List.mem_singleton.1 hin)
        · rwa [Function.update_of_ne hab] at hj
      unfold Function.kind
      rw [hsame j hji]
      exact h.fresh a j hin
  · rw [hsize, hcreated.insts_size]
  · unfold result?
    rw [hinst, if_pos rfl]
  · unfold Function.operands
    rw [hinst, if_pos rfl]
  · unfold result?
    rw [hsame j hj]
  · unfold Function.operands
    rw [hsame j hj]

end Reshaped

end Function

end SsaCompiler
