import SsaCompiler.Proofs.Ir.CallHistory

/-!
# Removing blocks

Blocks can be removed together although their values read one another in any order, since all their operands go
before the first of their instructions does. So what decides is only what is read from outside
(`Function.ReadOutside`): blocks that exist are removed exactly if no instruction outside of them, placed or not, reads
a value that is defined in them, and a report names such a reader. Where the removal succeeds, the function without the
blocks is known record by record (`Function.Without`).
-/

set_option autoImplicit false

namespace SsaCompiler

variable {i : InstId}

namespace Function

/-- The instructions of some blocks. -/
abbrev instsIn (f : Function) (blocks : List BlockId) : List InstId := blocks.flatMap f.instsOf

/-- A slot of an instruction that stands in none of the blocks reads a value that is defined in one of them. -/
structure ReadOutside (f : Function) (blocks : List BlockId) (u : Use) (v : ValueId) : Prop where
  reads : f.reads u = some v
  outside : u.user ∉ f.instsIn blocks
  inside : ∃ i ∈ f.instsIn blocks, f.definingInst? v = some i

/-- A function without some of its blocks. -/
structure Without (f : Function) (blocks : List BlockId) (f' : Function) : Prop where
  heading : f'.heading = f.heading
  insts_size : f'.insts.size = f.insts.size
  values_size : f'.values.size = f.values.size
  blocks_size : f'.blocks.size = f.blocks.size
  layout : f'.layout = f.layout.filter fun b => !blocks.contains b
  emptied : ∀ b ∈ blocks, f'.block b = { f.block b with insts := [], preds := [], removed := true }
  block : ∀ b, b ∉ blocks → f'.block b = f.block b
  detached : ∀ i ∈ f.instsIn blocks, f'.inst i = { f.inst i with operands := [], block := none }
  inst : ∀ i, i ∉ f.instsIn blocks → f'.inst i = f.inst i
  kind : ∀ v, (f'.value v).kind = (f.value v).kind
  name : ∀ v, (f'.value v).name = (f.value v).name
  /-- The results of the instructions that went are dead. -/
  dead : ∀ i ∈ f.instsIn blocks, ∀ v, f.result? i = some v → (f'.value v).live = false
  live : ∀ v, (∀ i ∈ f.instsIn blocks, f.result? i ≠ some v) → (f'.value v).live = (f.value v).live
  /-- The use index has lost the slots of the instructions that went, and nothing else. -/
  uses : ∀ v, (f'.uses v).Perm ((f.uses v).filter fun u => u.user ∉ f.instsIn blocks)

/-- What defines a result is the instruction that has it. -/
theorem Matched.definingInst?_eq_some_iff {f : Function} (hm : f.Matched) {v : ValueId} (hv : v < f.values.size) :
    f.definingInst? v = some i ↔ f.result? i = some v := by
  have hkind : f.definingInst? v = some i ↔ (f.value v).kind = .inst i := by
    unfold definingInst?
    cases (f.value v).kind <;> simp
  rw [hkind]
  exact ⟨hm.result_of_kind i v hv, fun hr => (hm.kind_of_result i v hr).2⟩

end Function

namespace Edit

open Edits

variable {f f' : Function} {doomed : List BlockId}

/-- A function whose operands and some of whose instructions in `insts` were taken away; those in `rest` are left. -/
structure Removing (f : Function) (insts rest : List InstId) (g : Function) : Prop where
  thinned : Thinned f g
  unread : ∀ i ∈ insts, i ∉ rest → ∀ v, f.result? i = some v → ∀ u, g.reads u ≠ some v
  dead : ∀ i ∈ insts, i ∉ rest → ∀ v, f.result? i = some v → (g.value v).live = false
  live : ∀ v, (∀ i ∈ insts, f.result? i ≠ some v) → (g.value v).live = (f.value v).live

variable {insts : List InstId}

variable {g g' : Function} {rest : List InstId}

/-- The next instruction is removed: nothing reads its result. -/
theorem Removing.step (h : Removing f insts (i :: rest) g) (hi : i ∈ insts)
    (hrun : (removeInst i).run g = (.ok (), g')) : Removing f insts rest g' := by
  have hthinned := thinned_removeInst i h.thinned hrun
  have hlive := live_removeInst hrun
  have hreads : ∀ u v, g'.reads u = some v → g.reads u = some v :=
    (thinned_removeInst i (.refl h.thinned.indexed) hrun).reads
  obtain ⟨-, hunread, -⟩ := removeInst_spec hrun
  refine ⟨hthinned, fun j hj hrest v hv u hu => ?_, fun j hj hrest v hv => ?_, fun v hv => ?_⟩
  · by_cases hji : j = i
    · have huses := hunread v ((h.thinned.result i).trans (hji ▸ hv))
      have hcount := h.thinned.indexed v u
      rw [huses, if_pos (hreads u v hu)] at hcount
      cases hcount
    · exact h.unread j hj (by simp [hji, hrest]) v hv u (hreads u v hu)
  · rw [hlive]
    by_cases hji : j = i
    · rw [if_pos ((h.thinned.result i).trans (hji ▸ hv))]
    · rw [h.dead j hj (by simp [hji, hrest]) v hv]
      split <;> rfl
  · rw [hlive, if_neg]
    · exact h.live v hv
    · rw [h.thinned.result]
      exact hv i hi

/-- Removing all instructions. -/
theorem removing_forM (h : Removing f insts insts g) (hrun : (insts.forM removeInst).run g = (.ok (), g')) :
    Removing f insts [] g' :=
  forM_keeps (P := fun rest g => Removing f insts rest g)
    (fun _ _ _ _ hsuffix hg hstep => hg.step (hsuffix.subset List.mem_cons_self) hstep) h hrun

theorem Removing.congr (h : Removing f insts rest g) (hvalues : g'.values = g.values) (hinsts : g'.insts = g.insts)
    (hblocks : g'.blocks.size = g.blocks.size) (hheading : g'.heading = g.heading) : Removing f insts rest g' := by
  have hvalue : ∀ v, g'.value v = g.value v := fun v => by rw [Function.value, hvalues, Function.value]
  have hinst : ∀ i, g'.inst i = g.inst i := fun i => by rw [Function.inst, hinsts, Function.inst]
  have hreads : ∀ u, g'.reads u = g.reads u := fun u => by
    rw [Function.reads, Function.operands, hinst]
    rfl
  refine ⟨⟨fun v u => ?_, ?_, ?_, hblocks.trans h.thinned.blocks_size, fun i => ?_, fun u v hu => ?_, fun i b hb => ?_,
    hheading.trans h.thinned.heading, fun v => ?_, fun v => ?_⟩, fun i hi hrest v hv u => ?_, fun i hi hrest v hv => ?_,
    fun v hv => ?_⟩
  · rw [Function.uses, hvalue, hreads]
    exact h.thinned.indexed v u
  · rw [hinsts]
    exact h.thinned.insts_size
  · rw [hvalues]
    exact h.thinned.values_size
  · rw [Function.result?, hinst]
    exact h.thinned.result i
  · exact h.thinned.reads u v (hreads u ▸ hu)
  · rw [Function.blockOf?, hinst] at hb
    exact h.thinned.places i b hb
  · rw [hvalue]
    exact h.thinned.kinds v
  · rw [hvalue]
    exact h.thinned.names v
  · rw [hreads]
    exact h.unread i hi hrest v hv u
  · rw [hvalue]
    exact h.dead i hi hrest v hv
  · rw [hvalue]
    exact h.live v hv

/-- Marking blocks that exist. -/
theorem removing_markRemoved {change : BlockData → BlockData} :
    ∀ {blocks : List BlockId} {g g' : Function}, Removing f insts [] g →
      (blocks.forM fun b => modifyBlock b change).run g = (.ok (), g') →
        Removing f insts [] g' ∧ ∀ b ∈ blocks, b < f.blocks.size := by
  intro blocks
  induction blocks with
  | nil =>
    intro g g' h hrun
    cases hrun
    exact ⟨h, fun b hb => absurd hb List.not_mem_nil⟩
  | cons a rest ih =>
    intro g g' h hrun
    obtain ⟨⟨⟩, g₁, hfirst, hrest⟩ := bind_eq_ok hrun
    obtain ⟨ha, rfl⟩ := modifyBlock_eq_ok hfirst
    have hmarked : Removing f insts [] { g with blocks := g.blocks.modify a change } :=
      h.congr rfl rfl Array.size_modify rfl
    obtain ⟨hall, hlt⟩ := ih hmarked hrest
    exact ⟨hall, List.forall_mem_cons.2 ⟨h.thinned.blocks_size ▸ ha, hlt⟩⟩

/-- What a removal that succeeds has come through: all instructions were removed, and the blocks exist. -/
theorem removing_of_removeBlocks (hindexed : Indexed f) (h : (removeBlocks doomed).run f = (.ok (), f')) :
    Removing f (f.instsIn doomed) [] f' ∧ ∀ b ∈ doomed, b < f.blocks.size := by
  unfold removeBlocks at h
  have h₀ := of_get_bind h
  obtain ⟨⟨⟩, f₁, hdetach, h₁⟩ := bind_eq_ok h₀
  obtain ⟨⟨⟩, f₂, hremove, h₂⟩ := bind_eq_ok h₁
  obtain ⟨⟨⟩, f₃, hmark, h₃⟩ := bind_eq_ok h₂
  cases h₃
  have hstart : Removing f (f.instsIn doomed) (f.instsIn doomed) f₁ := by
    refine ⟨Preserves.forM (fun i _ => thinned_detachOperands i) (.refl hindexed) hdetach,
      fun _ hi hnot => absurd hi hnot,
      fun _ hi hnot => absurd hi hnot, fun v _ => ?_⟩
    exact (keepsMarks_forM fun i => keepsMarks_detachOperands i).live_eq hdetach v
  obtain ⟨hall, hlt⟩ := removing_markRemoved (removing_forM hstart hremove) hmark
  exact ⟨hall.congr rfl rfl rfl rfl, hlt⟩

/-- The function that a removal of blocks leaves. -/
theorem without_of_removeBlocks (hindexed : Indexed f) (hlisted : ∀ b i, i ∈ f.instsOf b ↔ f.blockOf? i = some b)
    (h : (removeBlocks doomed).run f = (.ok (), f')) : f.Without doomed f' := by
  obtain ⟨hbecomes, hindexed'⟩ := removeBlocks_becomes hindexed hlisted h
  obtain ⟨hremoving, -⟩ := removing_of_removeBlocks hindexed h
  refine ⟨hremoving.thinned.heading, hremoving.thinned.insts_size, hbecomes.values_size, hbecomes.blocks_size,
    hbecomes.layout, fun b hb => ?_, fun b hb => ?_, fun i hi => ?_, fun i hi => ?_, hbecomes.kinds,
    hremoving.thinned.names, fun i hi v hv => ?_, hremoving.live, fun v => List.perm_iff_count.2 fun u => ?_⟩
  · rw [hbecomes.block, if_pos hb]
    rfl
  · rw [hbecomes.block, if_neg hb]
  · rw [hbecomes.inst, if_pos hi]
    rfl
  · rw [hbecomes.inst, if_neg hi]
  · exact hremoving.dead i hi List.not_mem_nil v hv
  · rw [hindexed' v u, reads_eq hbecomes]
    by_cases hu : u.user ∈ f.instsIn doomed
    · have hnot : u ∉ (f.uses v).filter fun u => u.user ∉ f.instsIn doomed :=
        fun hmem => of_decide_eq_true (List.mem_filter.1 hmem).2 hu
      rw [if_pos hu, List.count_eq_zero.2 hnot]
      rfl
    · rw [if_neg hu, List.count_filter (by simpa using hu)]
      exact (hindexed v u).symm

/-- Blocks are removed exactly if nothing outside of them reads what is defined in them. -/
theorem removeBlocks_iff (h : Reached f) (doomed : List BlockId) :
    (Succeeds (removeBlocks doomed) f ↔
      (∀ b ∈ doomed, b < f.blocks.size) ∧ ∀ u v, ¬ f.ReadOutside doomed u v) ∧
    (∀ f', (removeBlocks doomed).run f = (.ok (), f') → f.Without doomed f') ∧
    ((∀ b ∈ doomed, b < f.blocks.size) → (∃ u v, f.ReadOutside doomed u v) →
      ∃ u v f', f.ReadOutside doomed u v ∧ (removeBlocks doomed).run f =
        (.error (.error (.danglingUse f.name (f.valueLabel v) s!"inst {u.user}")), f')) := by
  have hindexed := h.indexed
  have hlisted := h.structured.listed.placed
  have hanswers := @answers_removeBlocks f doomed hindexed hlisted fun i r hr => (h.matched.kind_of_result i r hr).1
  have hreader : ∀ {r u}, (∃ i ∈ doomed.flatMap f.instsOf, f.result? i = some r) → f.reads u = some r →
      u.user ∉ doomed.flatMap f.instsOf → f.ReadOutside doomed u r := by
    rintro r u ⟨i, hi, hr⟩ hread houtside
    exact ⟨hread, houtside, i, hi,
      (h.matched.definingInst?_eq_some_iff (h.matched.kind_of_result i r hr).1).2 hr⟩
  -- After a removal nobody reads what went, but readers outside still read what they did.
  have hfree : ∀ f', (removeBlocks doomed).run f = (.ok (), f') → ∀ u v, ¬ f.ReadOutside doomed u v := by
    rintro f' hrun u v ⟨hread, houtside, i, hi, hdefines⟩
    have hlt : v < f.values.size := lt_size_of_mem_operands hindexed (List.mem_of_getElem? hread)
    refine (removing_of_removeBlocks hindexed hrun).1.unread i hi List.not_mem_nil v
      ((h.matched.definingInst?_eq_some_iff hlt).1 hdefines) u ?_
    rw [Function.reads, Function.operands, (without_of_removeBlocks hindexed hlisted hrun).inst _ houtside]
    exact hread
  refine ⟨⟨?_, ?_⟩, fun f' hrun => without_of_removeBlocks hindexed hlisted hrun, ?_⟩
  · rintro ⟨⟨⟩, f', hrun⟩
    exact ⟨(removing_of_removeBlocks hindexed hrun).2, hfree f' hrun⟩
  · rintro ⟨hdoomed, hnone⟩
    refine ((hanswers hdoomed).mono ?_).succeeds
    rintro cause ⟨r, u, hr, hread, houtside, -⟩
    exact hnone u r (hreader hr hread houtside)
  · rintro hdoomed ⟨u, v, houtside⟩
    rcases hanswers hdoomed with ⟨⟨⟩, f', hrun⟩ | ⟨cause, f', hrun, r, u', hr, hread, hout, rfl⟩
    · exact absurd houtside (hfree f' hrun u v)
    · exact ⟨u', r, f', hreader hr hread hout, hrun⟩

/-- A function that returns twice its argument, with the sum in one block and the return in another one. -/
def sumThenReturn : Function where
  name := "twice"
  returnsValue := true
  params := [0]
  values := #[{ kind := .param 0, uses := [⟨0, 0⟩, ⟨0, 1⟩] }, { kind := .inst 0, uses := [⟨1, 0⟩] }]
  insts := #[
    { kind := .binary .add, operands := [0, 0], result := some 1, block := some 0 },
    { kind := .ret, operands := [1], result := none, block := some 1 }]
  blocks := #[{ name := "entry", insts := [0] }, { name := "out", insts := [1] }]
  layout := [0, 1]

/-- The block of the sum is removed only together with the block that reads it. -/
theorem removeBlocks_iff_sumThenReturn : Reached sumThenReturn ∧
    ¬ Succeeds (removeBlocks [0]) sumThenReturn ∧ Succeeds (removeBlocks [0, 1, 0]) sumThenReturn ∧
      ∀ f', (removeBlocks [0, 1, 0]).run sumThenReturn = (.ok (), f') → sumThenReturn.Without [0, 1, 0] f' := by
  have hreached : Reached sumThenReturn := by
    have hblocks := Reached.done (.createBlock "out") (.done (.createBlock "entry") (.new "twice" 1 true) rfl) rfl
    have hsum := Reached.done (.createInst (.binary .add) [0, 0] true) hblocks rfl
    have hret := Reached.done (.createInst .ret [1] false) (.done (.pushBack 0 0) hsum rfl) rfl
    exact .done (.pushBack 1 1) hret (by cbv)
  refine ⟨hreached, fun hone => ?_, ⟨_, _, by cbv⟩, (removeBlocks_iff hreached [0, 1, 0]).2.1⟩
  have hread : sumThenReturn.ReadOutside [0] ⟨1, 0⟩ 1 := ⟨rfl, by decide, 0, by decide, rfl⟩
  exact ((removeBlocks_iff hreached [0]).1.1 hone).2 ⟨1, 0⟩ 1 hread

end Edit

end SsaCompiler
