import SsaCompiler.Proofs.Ir.TendedRecords

/-!
# Edits that succeed

Each edit has its precondition: the records that it changes exist, the slots that it strikes are in the use index,
an instruction that it removes is not read. On a function that meets it the edit succeeds. The lemmas give the
preconditions of all edits that the passes make, from the changes of single records up to removing whole blocks.
-/

set_option autoImplicit false

namespace SsaCompiler

namespace Function

variable {f : Function} {i : InstId} {b : BlockId}

/-- An instruction that names a block exists. -/
theorem lt_insts_size (h : f.blockOf? i = some b) : i < f.insts.size := by
  by_contra hge
  rw [blockOf?, Edit.inst_of_size_le (Nat.le_of_not_lt hge)] at h
  cases h

theorem lt_blocks_size (h : i ∈ f.instsOf b) : b < f.blocks.size := by
  by_contra hge
  rw [instsOf, block, Array.getD_eq_getD_getElem?, Array.getElem?_eq_none (Nat.le_of_not_lt hge)] at h
  cases h

end Function

namespace Edit

open Edits

variable {f f' : Function} {α β : Type}

variable {question : Function → Outcome α} {doomed : List BlockId} {u : Use} {table : Use → Option ValueId}

/-- A question that has an answer. -/
theorem succeeds_ask {a : α} (h : question f = .ok a) : Succeeds (ask question) f := by
  refine .get_bind ?_
  rw [h]
  exact .pure a f

theorem succeeds_ask_bind {a : α} {next : α → Edit β} (h : question f = .ok a) (hnext : Succeeds (next a) f) :
    Succeeds (ask question >>= next) f := by
  simpa only [Succeeds, run_ask_bind question h] using hnext

variable {b : BlockId} {i : InstId} {l : List ValueId} {slot : Nat} {v : ValueId}

theorem succeeds_modifyValue (hv : v < f.values.size) (change : ValueData → ValueData) :
    Succeeds (modifyValue v change) f := by
  refine .get_bind ?_
  rw [if_pos hv]
  exact ⟨_, _, rfl⟩

theorem succeeds_modifyInst (hi : i < f.insts.size) (change : InstData → InstData) :
    Succeeds (modifyInst i change) f := by
  refine .get_bind ?_
  rw [if_pos hi]
  exact ⟨_, _, rfl⟩

theorem succeeds_modifyBlock (hb : b < f.blocks.size) (change : BlockData → BlockData) :
    Succeeds (modifyBlock b change) f := by
  refine .get_bind ?_
  rw [if_pos hb]
  exact ⟨_, _, rfl⟩

/-- The value of a constant or an address can always be had. -/
theorem succeeds_internValue (kind : ValueKind) : Succeeds (internValue kind) f := by
  refine .get_bind ?_
  split
  · exact .pure _ _
  · exact ⟨_, _, rfl⟩

/-! ## The use index -/

/-- A slot that is in the use index is an entry of its value, which exists. -/
theorem mem_uses_of_indexed (h : f.IndexedBy table) (hu : table u = some v) : u ∈ f.uses v ∧ v < f.values.size := by
  have hmem : u ∈ f.uses v := by
    rw [← List.count_pos_iff, h, if_pos hu]
    exact Nat.one_pos
  refine ⟨hmem, Nat.lt_of_not_le fun hle => ?_⟩
  rw [Function.uses_of_size_le hle] at hmem
  cases hmem

theorem lt_size_of_mem_operands (h : f.IndexedBy f.reads) (hv : v ∈ f.operands i) : v < f.values.size := by
  obtain ⟨slot, hslot, rfl⟩ := List.getElem_of_mem hv
  exact (mem_uses_of_indexed (u := ⟨i, slot⟩) h (List.getElem?_eq_getElem hslot)).2

theorem lt_size_of_operands (h : f.operands i ≠ []) : i < f.insts.size := by
  by_contra hle
  rw [Function.operands, inst_of_size_le (Nat.le_of_not_lt hle)] at h
  exact h rfl

theorem succeeds_removeUse (h : f.IndexedBy table) (hu : table u = some v) : Succeeds (removeUse v u) f := by
  obtain ⟨hmem, hv⟩ := mem_uses_of_indexed h hu
  obtain ⟨k, hk⟩ := Option.isSome_iff_exists.1 (List.isSome_idxOf?.2 hmem)
  refine .get_bind ?_
  rw [hk]
  exact succeeds_modifyValue hv _

theorem succeeds_removeUses : ∀ {slot : Nat} {f : Function} {table : Use → Option ValueId},
    f.IndexedBy table → (∀ k, k < l.length → table ⟨i, slot + k⟩ = l[k]?) → Succeeds (removeUses i slot l) f := by
  induction l with
  | nil => exact fun _ _ => .pure _ _
  | cons v rest ih =>
    intro slot f table htable hl
    have hv : table ⟨i, slot⟩ = some v := hl 0 (Nat.succ_pos _)
    refine .bind (succeeds_removeUse htable hv) fun _ f₁ hrun => ih ((removeUse_spec hrun).2.2 table htable).2 ?_
    intro k hk
    have hslot : (⟨i, slot + 1 + k⟩ : Use) ≠ ⟨i, slot⟩ := by
      intro heq
      have hslots := congrArg Use.slot heq
      dsimp only at hslots
      omega
    have hnext := hl (k + 1) (Nat.succ_lt_succ hk)
    rw [Function.update_of_ne hslot, show slot + 1 + k = slot + (k + 1) by omega, hnext]
    rfl

theorem succeeds_addUses : ∀ {slot : Nat} {f : Function},
    (∀ v ∈ l, v < f.values.size) → Succeeds (addUses i slot l) f := by
  induction l with
  | nil => exact fun _ => .pure _ _
  | cons v rest ih =>
    intro slot f hl
    refine .bind (succeeds_modifyValue (hl v List.mem_cons_self) _) fun _ f₁ hrun => ih fun w hw => ?_
    rw [(addUse_spec hrun).2.1.values_size]
    exact hl w (List.mem_cons_of_mem _ hw)

theorem succeeds_lowerUses : ∀ {slot : Nat} {f : Function}, 0 < slot →
    (∀ v ∈ l, v < f.values.size) → Succeeds (lowerUses i slot l) f := by
  induction l with
  | nil => exact fun _ _ => .pure _ _
  | cons v rest ih =>
    intro slot f hslot hl
    refine .bind (succeeds_modifyValue (hl v List.mem_cons_self) _) fun _ f₁ hrun => ih (Nat.succ_pos _) fun w hw => ?_
    rw [(lowerUse_spec hslot hrun).1.values_size]
    exact hl w (List.mem_cons_of_mem _ hw)

/-! ## Operands -/

/-- Creating an instruction that reads values that exist. -/
theorem succeeds_createInst {kind : InstKind} {operands : List ValueId} {hasResult : Bool}
    (h : ∀ v ∈ operands, v < f.values.size) : Succeeds (createInst kind operands hasResult) f := by
  have hpush : ∀ {g : Function} {result}, f.values.size ≤ g.values.size → Succeeds (do
      addUses f.insts.size 0 operands
      modify fun g => { g with insts := g.insts.push { kind, operands, result } }
      return f.insts.size : Edit InstId) g := by
    intro g result hle
    refine .bind (succeeds_addUses fun v hv => Nat.lt_of_lt_of_le (h v hv) hle) fun _ g₁ _ => ?_
    exact ⟨_, _, rfl⟩
  refine .get_bind ?_
  cases hasResult with
  | false => exact .bind (.pure _ f) fun result g hrun => by cases hrun; exact hpush (Nat.le_refl _)
  | true =>
    refine .bind ⟨_, _, rfl⟩ fun result g hrun => ?_
    cases hrun
    exact hpush (by simp)

/-- Reading the operand in a slot that exists. -/
theorem operand_of_getElem? (h : (f.operands i)[slot]? = some v) : f.operand i slot = .ok v := by
  unfold Function.operand
  rw [h]
  rfl

/-- Instructions that take enough operands have one in a slot. -/
theorem exists_operand (slot : Nat) (hs : f.Sound) (hi : i ∈ f.instsOf b)
    (hslot : ∀ n, (f.kind i).fits n = true → slot < n) : ∃ v, f.operand i slot = .ok v ∧ v ∈ f.operands i := by
  have hlt := hslot _ (hs.fits b i hi)
  exact ⟨(f.operands i)[slot], operand_of_getElem? (List.getElem?_eq_getElem hlt), List.getElem_mem hlt⟩

/-- Asking for the result of an instruction that has one. -/
theorem resultOf_of_result {r : ValueId} (h : f.result? i = some r) : f.resultOf i = .ok r := by
  unfold Function.resultOf
  rw [h]

theorem succeeds_setOperand (hindexed : f.IndexedBy f.reads) (hslot : slot < (f.operands i).length)
    (hv : v < f.values.size) : Succeeds (setOperand i slot v) f := by
  have hold : f.reads ⟨i, slot⟩ = some (f.operands i)[slot] := List.getElem?_eq_getElem hslot
  refine succeeds_ask_bind (operand_of_getElem? hold) ?_
  split
  · refine .bind (succeeds_removeUse hindexed hold) fun _ f₁ hremove => ?_
    obtain ⟨hsame, hsize, -⟩ := removeUse_spec hremove
    refine .bind (succeeds_modifyValue (hsame.values_size ▸ hv) _) fun _ f₂ hadd => ?_
    obtain ⟨-, -, hsize', -⟩ := addUse_spec hadd
    refine succeeds_modifyInst ?_ _
    rw [hsize', hsize]
    exact lt_size_of_operands (List.ne_nil_of_length_pos (Nat.zero_lt_of_lt hslot))
  · exact .pure _ _

theorem succeeds_pushOperand (hi : i < f.insts.size) (hv : v < f.values.size) : Succeeds (pushOperand i v) f := by
  refine .get_bind (.bind (succeeds_modifyInst hi _) fun _ f₁ hrun => succeeds_modifyValue ?_ _)
  rw [(modifyInst_spec hrun).2.2.1.values_size]
  exact hv

theorem succeeds_removeOperand (hindexed : f.IndexedBy f.reads) (hslot : slot < (f.operands i).length) :
    Succeeds (removeOperand i slot) f := by
  have hold : f.reads ⟨i, slot⟩ = some (f.operands i)[slot] := List.getElem?_eq_getElem hslot
  refine succeeds_ask_bind (operand_of_getElem? hold) ?_
  refine .bind (succeeds_removeUse hindexed hold) fun _ f₁ hremove => .get_bind ?_
  obtain ⟨hsame, hsize, -⟩ := removeUse_spec hremove
  refine .bind (succeeds_lowerUses (Nat.succ_pos _) fun v hv => ?_) fun _ f₂ hlower => succeeds_modifyInst ?_ _
  · rw [hsame.values_size]
    refine lt_size_of_mem_operands hindexed (i := i) ?_
    have hmem := List.mem_of_mem_drop hv
    rw [Function.operands, hsame.inst] at hmem
    exact hmem
  · rw [(lowerUses_spec hlower).2.1, hsize]
    exact lt_size_of_operands (List.ne_nil_of_length_pos (Nat.zero_lt_of_lt hslot))

/-- Making all slots that read one value read another one, where both exist. -/
theorem succeeds_replaceAllUses {old new : ValueId} (hindexed : f.IndexedBy f.reads) (hold : old < f.values.size)
    (hnew : new < f.values.size) : Succeeds (replaceAllUses old new) f := by
  unfold replaceAllUses
  split
  · exact .pure _ _
  refine .get_bind (.bind (succeeds_modifyValue hold _) fun _ f₁ hclear => ?_)
  obtain ⟨-, hsame, hsize, -⟩ := modifyUses_spec (fun _ => []) hclear fun _ => ⟨rfl, rfl⟩
  have husers : ∀ u ∈ f.uses old, u.user < f₁.insts.size := by
    intro u hu
    rw [hsize]
    refine lt_size_of_operands fun hnil => ?_
    rw [← List.count_pos_iff, hindexed, Function.reads, hnil] at hu
    simp at hu
  refine .bind (.forM_of_keeps (P := fun g => g.insts.size = f₁.insts.size) (fun u hu g hg => ?_) rfl) fun _ f₂ hset => ?_
  · refine ⟨succeeds_modifyInst (hg ▸ husers u hu) _, fun g' hrun => ?_⟩
    rw [(modifyInst_spec hrun).2.1, hg]
  · have hvalues : f₂.values.size = f₁.values.size := by
      refine Preserves.forM (P := fun g => g.values.size = f₁.values.size) (fun u _ g g' _ hg hrun => ?_) rfl hset
      exact (modifyInst_spec hrun).2.2.1.values_size.trans hg
    refine .bind (succeeds_modifyValue ?_ _) fun _ _ _ => .pure _ _
    rw [hvalues, hsame.values_size]
    exact hnew

/-- Taking the operands from an instruction that exists. -/
theorem succeeds_detachOperands (hindexed : f.IndexedBy f.reads) (hi : i < f.insts.size) :
    Succeeds (detachOperands i) f := by
  refine .get_bind (.bind (succeeds_modifyInst hi _) fun _ f₁ hrun => ?_)
  obtain ⟨-, -, -, huses⟩ := modifyInst_spec hrun
  have hindexed₁ : f₁.IndexedBy f.reads := fun v u => by rw [huses]; exact hindexed v u
  refine succeeds_removeUses hindexed₁ fun k _ => ?_
  rw [Nat.zero_add]
  rfl

/-! ## Blocks -/

theorem succeeds_place {pos : Nat} (hfree : f.blockOf? i = none) (hb : b < f.blocks.size) (hi : i < f.insts.size) :
    Succeeds (place b pos i) f := by
  refine .get_bind (.bind ?_ fun _ f₁ hdemand => ?_)
  · rw [hfree]
    exact .pure _ _
  · obtain ⟨-, rfl⟩ := demand_eq_ok hdemand
    refine .bind (succeeds_modifyBlock hb _) fun _ f₂ hrun => succeeds_modifyInst ?_ _
    rw [(modifyBlock_spec hrun).2.1]
    exact hi

/-- Appending a detached instruction that is no phi to a block that is not finished. -/
theorem succeeds_pushBack (hopen : isTerminated f b = false) (hphi : (f.kind i).isPhi = false)
    (hfree : f.blockOf? i = none) (hb : b < f.blocks.size) (hi : i < f.insts.size) : Succeeds (pushBack b i) f := by
  refine .get_bind (.bind ?_ fun _ f₁ hdemand => ?_)
  · rw [hopen]
    exact .pure _ _
  · obtain ⟨-, rfl⟩ := demand_eq_ok hdemand
    dsimp only
    rw [hphi]
    exact succeeds_place hfree hb hi

theorem succeeds_insertPhi (hphi : (f.kind i).isPhi = true) (hfree : f.blockOf? i = none) (hb : b < f.blocks.size)
    (hi : i < f.insts.size) : Succeeds (insertPhi b i) f := by
  refine .get_bind ?_
  rw [if_pos hphi]
  exact succeeds_place hfree hb hi

theorem succeeds_unplace (hindexed : f.IndexedBy f.reads) (hi : i < f.insts.size)
    (hblock : ∀ b, f.blockOf? i = some b → b < f.blocks.size) : Succeeds (unplace i) f := by
  refine .bind (succeeds_detachOperands hindexed hi) fun _ f₁ hrun => .get_bind ?_
  obtain ⟨-, hsize, hbecomes, -⟩ := detachOperands_spec hrun
  have hplace : f₁.blockOf? i = f.blockOf? i := by
    rw [Function.blockOf?, hbecomes.inst, Function.update_self]
    rfl
  rw [hplace]
  split
  · rename_i b hb
    refine .bind (succeeds_modifyInst (by rw [hsize]; exact hi) _) fun _ f₂ hmodify => succeeds_modifyBlock ?_ _
    rw [(modifyInst_spec hmodify).2.2.1.blocks_size, hbecomes.blocks_size]
    exact hblock b hb
  · exact .pure _ _

/-- A removal fails only because the result is read, and then it names a reader. -/
theorem answers_removeInst (hindexed : f.IndexedBy f.reads) (hi : i < f.insts.size)
    (hresult : ∀ r, f.result? i = some r → r < f.values.size)
    (hblock : ∀ b, f.blockOf? i = some b → b < f.blocks.size) :
    Answers (fun cause => ∃ r u, f.result? i = some r ∧ f.reads u = some r ∧
      cause = .danglingUse f.name (f.valueLabel r) s!"inst {u.user}") (removeInst i) f := by
  refine .get_bind ?_
  dsimp only
  split
  · rename_i r hr
    split
    · rename_i u hu
      refine .inr ⟨_, f, rfl, r, u, hr, ?_, rfl⟩
      have hmem : 0 < (f.uses r).count u := List.count_pos_iff.2 (List.mem_of_mem_head? hu)
      by_contra hne
      rw [hindexed, if_neg hne] at hmem
      exact Nat.lt_irrefl 0 hmem
    · refine .inl (.bind (succeeds_modifyValue (hresult r hr) _) fun _ f₁ hmark => ?_)
      obtain ⟨-, hsame, hsize, huses⟩ := modifyUses_spec id hmark fun _ => ⟨rfl, rfl⟩
      refine succeeds_unplace (fun v u => ?_) (hsize ▸ hi) fun b hb => ?_
      · have huses' : f₁.uses v = f.uses v := by
          rw [huses]
          split
          · rename_i hv
            rw [hv]
            rfl
          · rfl
        rw [huses', reads_eq hsame]
        exact hindexed v u
      · rw [hsame.blocks_size]
        exact hblock b ((congrArg InstData.block (hsame.inst i)).symm.trans hb)
  · exact .inl (succeeds_unplace hindexed hi hblock)

/-- Removing an instruction whose result is not read. -/
theorem succeeds_removeInst (hindexed : f.IndexedBy f.reads) (hi : i < f.insts.size)
    (hunread : ∀ r, f.result? i = some r → r < f.values.size ∧ ∀ j, r ∉ f.operands j)
    (hblock : ∀ b, f.blockOf? i = some b → b < f.blocks.size) : Succeeds (removeInst i) f := by
  refine ((answers_removeInst hindexed hi (fun r hr => (hunread r hr).1) hblock).mono ?_).succeeds
  rintro cause ⟨r, u, hr, hread, -⟩
  exact (hunread r hr).2 u.user (List.mem_of_getElem? hread)

/-- An instruction that stands in a block of a sound function stands in a block that exists. -/
theorem lt_size_of_blockOf? (hs : f.Sound) (h : f.blockOf? i = some b) : b < f.blocks.size :=
  Function.lt_blocks_size ((hs.placed b i).2 h)

/-- Removing an instruction of a sound function whose result is not read. -/
theorem succeeds_removeInst_of_sound (hs : f.Sound) (hi : i ∈ f.instsOf b)
    (hunread : ∀ r, f.result? i = some r → ∀ j, r ∉ f.operands j) : Succeeds (removeInst i) f :=
  succeeds_removeInst hs.indexed (hs.lt_insts_size hi) (fun r hr => ⟨(hs.kind_of_result i r hr).1, hunread r hr⟩)
    fun _ => lt_size_of_blockOf? hs

/-- Removing a predecessor whose slot all phis of the block have. -/
theorem succeeds_removePredAt {idx : Nat} (hs : f.Sound) (hidx : idx < (f.preds b).length)
    (hslots : ∀ phi ∈ f.phis b, idx < (f.operands phi).length) : Succeeds (removePredAt b idx) f := by
  have hnodup : (f.phis b).Nodup := (List.takeWhile_sublist _).nodup (hs.nodup b)
  have hb : b < f.blocks.size := Function.lt_size_of_mem_preds (List.getElem_mem hidx)
  refine .get_bind (.bind (.forM (P := fun rest g => g.IndexedBy g.reads ∧
    ∀ phi ∈ rest, g.operands phi = f.operands phi) (fun phi rest g hsuffix hg => ?_) ⟨hs.indexed, fun _ _ => rfl⟩) ?_)
  · have hmem : phi ∈ f.phis b := hsuffix.subset List.mem_cons_self
    refine ⟨succeeds_removeOperand hg.1 ?_, fun g' hrun => ?_⟩
    · rw [hg.2 phi List.mem_cons_self]
      exact hslots phi hmem
    · obtain ⟨-, -, -, hbecomes, hindex⟩ := removeOperand_spec hrun
      refine ⟨hindex hg.1, fun other hother => ?_⟩
      have hne : other ≠ phi := by
        rintro rfl
        exact (List.nodup_cons.1 (hnodup.sublist hsuffix.sublist)).1 hother
      rw [Function.operands, hbecomes.inst, Function.update_of_ne hne]
      exact hg.2 other (List.mem_cons_of_mem _ hother)
  · intro _ g hrun
    have hblock : g.blocks.size = f.blocks.size ∧ g.preds b = f.preds b := by
      refine Preserves.forM (P := fun g => g.blocks.size = f.blocks.size ∧ g.preds b = f.preds b)
        (fun phi _ g g' _ hg hrun => ?_) ⟨rfl, rfl⟩ hrun
      obtain ⟨-, -, -, hbecomes, -⟩ := removeOperand_spec hrun
      exact ⟨hbecomes.blocks_size.trans hg.1, (congrArg BlockData.preds (hbecomes.block b)).trans hg.2⟩
    refine .get_bind ?_
    rw [hblock.2, if_pos hidx]
    exact succeeds_modifyBlock (hblock.1 ▸ hb) _

/-- What taking operands and instructions away leaves of a function. -/
structure Thinned (f g : Function) : Prop where
  indexed : g.IndexedBy g.reads
  insts_size : g.insts.size = f.insts.size
  values_size : g.values.size = f.values.size
  blocks_size : g.blocks.size = f.blocks.size
  result : ∀ i, g.result? i = f.result? i
  reads : ∀ u v, g.reads u = some v → f.reads u = some v
  places : ∀ i b, g.blockOf? i = some b → f.blockOf? i = some b
  heading : g.heading = f.heading
  kinds : ∀ v, (g.value v).kind = (f.value v).kind
  names : ∀ v, (g.value v).name = (f.value v).name

namespace Thinned

variable {g g' : Function}

theorem refl (h : f.IndexedBy f.reads) : Thinned f f :=
  ⟨h, rfl, rfl, rfl, fun _ => rfl, fun _ _ hu => hu, fun _ _ hb => hb, rfl, fun _ => rfl, fun _ => rfl⟩

/-- Reports name the function and its values as before. -/
theorem label (h : Thinned f g) : g.name = f.name ∧ ∀ v, g.valueLabel v = f.valueLabel v := by
  refine ⟨congrArg Heading.name h.heading, fun v => ?_⟩
  rw [Function.valueLabel, Function.valueLabel, h.kinds, h.names]

/-- A change of one instruction that takes all its operands. -/
theorem update {d : InstData} {block : BlockId → BlockData} {layout : List BlockId} (h : Thinned f g)
    (hb : g.Becomes g' (Function.update g.inst i d) block layout) (hindexed : g'.IndexedBy g'.reads)
    (hsize : g'.insts.size = g.insts.size) (hd : d.operands = [] ∧ d.result = g.result? i ∧
      ∀ b, d.block = some b → g.blockOf? i = some b) (hheading : g'.heading = g.heading)
    (hnames : ∀ v, (g'.value v).name = (g.value v).name) : Thinned f g' := by
  refine ⟨hindexed, hsize.trans h.insts_size, hb.values_size.trans h.values_size, hb.blocks_size.trans h.blocks_size,
    fun j => ?_, fun u v hu => h.reads u v ?_, fun j b hj => h.places j b ?_, hheading.trans h.heading,
    fun v => (hb.kinds v).trans (h.kinds v), fun v => (hnames v).trans (h.names v)⟩
  · rw [← h.result, Function.result?, hb.inst, Function.update_apply]
    split
    · rename_i hj
      rw [hj]
      exact hd.2.1
    · rfl
  · rw [reads_eq hb, Function.update_apply] at hu
    split at hu
    · rw [hd.1] at hu
      cases hu
    · exact hu
  · rw [Function.blockOf?, hb.inst, Function.update_apply] at hj
    split at hj
    · rename_i heq
      rw [heq]
      exact hd.2.2 b hj
    · exact hj

end Thinned

/-- Taking the operands from an instruction. -/
theorem thinned_detachOperands (i : InstId) : Preserves (Thinned f) (detachOperands i) := by
  intro g g' _ hg hrun
  obtain ⟨-, hsize, hbecomes, hindex⟩ := detachOperands_spec hrun
  refine hg.update hbecomes (hindex hg.indexed) hsize ⟨rfl, rfl, fun _ hb => hb⟩ ?_
    ((keepsMarks_detachOperands i).name_eq hrun)
  exact ((brings_detachOperands i).outlines (V := fun _ => False) (K := fun _ => False) hrun).heading

/-- Removing an instruction. -/
theorem thinned_removeInst (i : InstId) : Preserves (Thinned f) (removeInst i) := by
  intro g g' _ hg hrun
  obtain ⟨-, -, hsize, hbecomes, hindex⟩ := removeInst_spec hrun
  refine hg.update hbecomes (hindex hg.indexed) hsize ⟨rfl, rfl, nofun⟩ ?_ fun v => (marks_removeInst hrun v).2
  exact ((brings_removeInst i).outlines (V := fun _ => False) (K := fun _ => False) hrun).heading

/-- Removing blocks fails only because a result of theirs is read outside, and then it names a reader. -/
theorem answers_removeBlocks (hindexed : f.IndexedBy f.reads)
    (hlisted : ∀ b i, i ∈ f.instsOf b ↔ f.blockOf? i = some b)
    (hresults : ∀ i r, f.result? i = some r → r < f.values.size) (hdoomed : ∀ b ∈ doomed, b < f.blocks.size) :
    Answers (fun cause => ∃ r u, (∃ i ∈ doomed.flatMap f.instsOf, f.result? i = some r) ∧ f.reads u = some r ∧
      u.user ∉ doomed.flatMap f.instsOf ∧ cause = .danglingUse f.name (f.valueLabel r) s!"inst {u.user}")
      (removeBlocks doomed) f := by
  have hlt : ∀ i ∈ doomed.flatMap f.instsOf, i < f.insts.size := by
    intro i hi
    obtain ⟨b, -, hmem⟩ := List.mem_flatMap.1 hi
    exact Function.lt_insts_size ((hlisted b i).1 hmem)
  refine .get_bind (.bind (.inl (.forM_of_keeps (P := Thinned f) (fun i hi g hg => ?_) (.refl hindexed))) ?_)
  · exact ⟨succeeds_detachOperands hg.indexed (hg.insts_size ▸ hlt i hi), fun _ hrun => thinned_detachOperands i hg hrun⟩
  intro _ f₁ hdetach
  have hdetached : Thinned f f₁ := Preserves.forM (fun i _ => thinned_detachOperands i) (.refl hindexed) hdetach
  -- What is still read is read outside.
  have houtside : ∀ u v, f₁.reads u = some v → u.user ∉ doomed.flatMap f.instsOf := by
    intro u v hu hin
    rw [reads_eq (forM_detachOperands_spec hdetach).1, if_pos hin] at hu
    cases hu
  refine .bind (.forM_of_keeps (P := Thinned f₁) (fun i hi g hg => ⟨?_, fun _ hrun => thinned_removeInst i hg hrun⟩)
    (.refl hdetached.indexed)) fun _ f₂ hremove => ?_
  · refine (answers_removeInst hg.indexed ?_ (fun r hr => ?_) fun b hb => ?_).mono ?_
    · rw [hg.insts_size, hdetached.insts_size]
      exact hlt i hi
    · rw [hg.values_size, hdetached.values_size]
      rw [hg.result, hdetached.result] at hr
      exact hresults i r hr
    · rw [hg.blocks_size, hdetached.blocks_size]
      exact Function.lt_blocks_size ((hlisted b i).2 (hdetached.places i b (hg.places i b hb)))
    · rintro cause ⟨r, u, hr, hu, rfl⟩
      have hu₁ := hg.reads u r hu
      rw [hg.result, hdetached.result] at hr
      refine ⟨r, u, ⟨i, hi, hr⟩, hdetached.reads u r hu₁, houtside u r hu₁, ?_⟩
      rw [hg.label.1, hdetached.label.1, hg.label.2, hdetached.label.2]
  · have hremoved : Thinned f₁ f₂ := Preserves.forM (fun i _ => thinned_removeInst i) (.refl hdetached.indexed) hremove
    have hblocks : f₂.blocks.size = f.blocks.size := hremoved.blocks_size.trans hdetached.blocks_size
    refine .inl (.bind (.forM_of_keeps (P := fun g => g.blocks.size = f.blocks.size) (fun b hb g hg => ?_) hblocks)
      fun _ f₃ _ => ⟨_, _, rfl⟩)
    refine ⟨succeeds_modifyBlock (hg ▸ hdoomed b hb) _, fun g' hrun => ?_⟩
    exact (modifyBlock_spec hrun).2.2.1.blocks_size.trans hg

/-- Removing blocks whose results are read in these blocks only. -/
theorem succeeds_removeBlocks (hs : f.Sound) (hdoomed : ∀ b ∈ doomed, b < f.blocks.size)
    (hunread : ∀ b ∈ doomed, ∀ i ∈ f.instsOf b, ∀ r, f.result? i = some r → ∀ j, r ∈ f.operands j →
      ∃ c ∈ doomed, j ∈ f.instsOf c) : Succeeds (removeBlocks doomed) f := by
  refine ((answers_removeBlocks hs.indexed hs.placed (fun i r hr => (hs.kind_of_result i r hr).1) hdoomed).mono ?_).succeeds
  rintro cause ⟨r, u, ⟨i, hi, hr⟩, hread, houtside, -⟩
  obtain ⟨b, hb, hin⟩ := List.mem_flatMap.1 hi
  obtain ⟨c, hc, huser⟩ := hunread b hb i hin r hr u.user (List.mem_of_getElem? hread)
  exact houtside (List.mem_flatMap.2 ⟨c, hc, huser⟩)

/-- Exchanging the terminator of a block for a jump. -/
theorem succeeds_replaceTerminator {t : BlockId} {before : List InstId} {old : InstId} (hs : f.Sound)
    (hinsts : f.instsOf b = before ++ [old]) (hold : (f.kind old).isTerminator = true)
    (hbefore : ∀ i ∈ before, (f.kind i).isTerminator = false) : Succeeds (replaceTerminator b (.jump t) []) f := by
  have hmem : old ∈ f.instsOf b := by
    rw [hinsts]
    exact List.mem_append_right _ List.mem_cons_self
  have hnone : ∀ r, f.result? old ≠ some r := by
    intro r hr
    have hgives := hs.gives old r hr
    rw [InstKind.not_givesValue hold] at hgives
    cases hgives
  refine succeeds_ask_bind (terminator_eq_ok.2 ⟨by rw [hinsts, List.getLast?_concat], hold⟩) ?_
  refine .bind (succeeds_removeInst_of_sound hs hmem fun r hr => absurd hr (hnone r)) fun _ f₁ hremove => ?_
  obtain ⟨-, -, hsize, hbecomes, -⟩ := removeInst_spec hremove
  refine .bind (succeeds_createInst fun v hv => absurd hv List.not_mem_nil) fun n f₂ hcreate => ?_
  obtain ⟨rfl, hcreated⟩ := created_createInst hcreate
  have hnew : f₂.inst f₁.insts.size = { kind := .jump t, operands := [], result := none } := by
    rw [hcreated.inst, Function.update_self]
    rfl
  have hleft : f₂.instsOf b = before := by
    rw [Function.instsOf, hcreated.block, hbecomes.block, blocksWithout, if_pos ((hs.placed b old).1 hmem)]
    exact filter_ne_last hinsts (hs.nodup b)
  have hkind : ∀ i ∈ before, f₂.kind i = f.kind i := by
    intro i hi
    have hin : i ∈ f.instsOf b := by
      rw [hinsts]
      exact List.mem_append_left _ hi
    have hne : i ≠ old := by
      rintro rfl
      have hterm := hbefore i hi
      rw [hold] at hterm
      cases hterm
    have hne' : i ≠ f₁.insts.size := by
      rw [hsize]
      exact Nat.ne_of_lt (hs.lt_insts_size hin)
    rw [Function.kind, hcreated.inst, Function.update_of_ne hne', hbecomes.inst, Function.update_of_ne hne]
    rfl
  refine .bind (succeeds_pushBack ?_ ?_ ?_ ?_ ?_) fun _ _ _ => .pure _ _
  · unfold isTerminated
    rw [hleft]
    split
    · rename_i last hlast
      have hin := List.mem_of_getLast? hlast
      rw [hkind last hin]
      exact hbefore last hin
    · rfl
  · rw [Function.kind, hnew]
    rfl
  · rw [Function.blockOf?, hnew]
  · rw [hcreated.blocks_size, hbecomes.blocks_size]
    exact lt_size_of_blockOf? hs ((hs.placed b old).1 hmem)
  · rw [hcreated.insts_size]
    exact Nat.lt_succ_self _

end Edit

end SsaCompiler
