import SsaCompiler.Proofs.Ir.UseIndex

/-!
# Placing and removing instructions and blocks

What the edits of blocks and predecessor lists make of a function, in terms of its instructions, blocks
and layout, and that they keep it sound.
-/

set_option autoImplicit false

namespace SsaCompiler

variable {α : Type}

/-- The first elements that pass a test depend on the test for elements alone. -/
theorem takeWhile_congr {p q : α → Bool} {l : List α} (h : ∀ a ∈ l, p a = q a) : l.takeWhile p = l.takeWhile q := by
  induction l with
  | nil => rfl
  | cons a l ih =>
    rw [List.takeWhile_cons, List.takeWhile_cons, h a List.mem_cons_self,
      ih fun b hb => h b (List.mem_cons_of_mem _ hb)]

variable {β : Type}

/-- Looking up a key in a list in which no key occurs twice. -/
theorem lookup_eq_some_of_mem [BEq α] [LawfulBEq α] {entries : List (α × β)} (hnodup : (entries.map Prod.fst).Nodup)
    {a : α} {b : β} (h : (a, b) ∈ entries) : entries.lookup a = some b := by
  obtain ⟨front, back, rfl⟩ := List.append_of_mem h
  refine List.lookup_eq_some_iff.2 ⟨front, back, rfl, fun e he => bne_iff_ne.2 ?_⟩
  rw [List.map_append, List.map_cons, List.nodup_append] at hnodup
  exact (hnodup.2.2 e.1 (List.mem_map.2 ⟨e, he, rfl⟩) a List.mem_cons_self).symm

/-- A key that is found is in the list. -/
theorem mem_of_lookup [BEq α] [LawfulBEq α] {entries : List (α × β)} {a : α} {b : β} (h : entries.lookup a = some b) :
    (a, b) ∈ entries := by
  obtain ⟨front, back, rfl, -⟩ := List.lookup_eq_some_iff.1 h
  exact List.mem_append_right _ List.mem_cons_self

/-- A key that is not found is not in the list. -/
theorem not_mem_of_lookup [BEq α] [LawfulBEq α] {entries : List (α × β)} {a : α} (h : entries.lookup a = none) :
    a ∉ entries.map Prod.fst := by
  intro hin
  obtain ⟨e, he, rfl⟩ := List.mem_map.1 hin
  exact absurd (List.lookup_eq_none_iff.1 h e he) (by simp)

/-- Inserting between two parts of a list. -/
theorem insertIdx_append_length (l m : List α) (a : α) : (l ++ m).insertIdx l.length a = l ++ a :: m := by
  induction l with
  | nil => rfl
  | cons b l ih =>
    rw [List.cons_append, List.length_cons, List.insertIdx_succ_cons, ih]
    rfl

namespace Function

variable {f f' : Function} {inst : InstId → InstData} {block : BlockId → BlockData} {layout : List BlockId}

/-- A function stays sound when its results stay what they are, each instruction is listed at most once
where it says, and the layout lists the blocks that are not removed. -/
theorem Sound.becomes (h : f.Sound) (hb : f.Becomes f' inst block layout)
    (hindexed : f'.IndexedBy f'.reads) (hresult : ∀ i, (inst i).result = f.result? i)
    (hgives : ∀ i r, f.result? i = some r → (inst i).kind.givesValue = true)
    (hfits : ∀ b, ∀ i ∈ (block b).insts, (inst i).kind.fits (inst i).operands.length = true ∧
      ∀ t ∈ (inst i).kind.targets, t < f.blocks.size)
    (hnodup : ∀ b, (block b).insts.Nodup) (hplaced : ∀ b i, i ∈ (block b).insts ↔ (inst i).block = some b)
    (hlayout : layout.Nodup) (hmem : ∀ b, b ∈ layout ↔ b < f.blocks.size ∧ (block b).removed = false) : f'.Sound where
  indexed := hindexed
  nodup b := by
    unfold instsOf
    rw [hb.block]
    exact hnodup b
  placed b i := by
    unfold instsOf blockOf?
    rw [hb.block, hb.inst]
    exact hplaced b i
  kind_of_result i r hr := by
    unfold result? at hr
    rw [hb.inst, hresult] at hr
    rw [hb.values_size, hb.kinds]
    exact h.kind_of_result i r hr
  result_of_kind i r hr hk := by
    rw [hb.values_size] at hr
    rw [hb.kinds] at hk
    unfold result?
    rw [hb.inst, hresult]
    exact h.result_of_kind i r hr hk
  gives i r hr := by
    unfold result? at hr
    rw [hb.inst, hresult] at hr
    unfold kind
    rw [hb.inst]
    exact hgives i r hr
  fits b i hi := by
    unfold instsOf at hi
    rw [hb.block] at hi
    unfold kind operands
    rw [hb.inst]
    exact (hfits b i hi).1
  bounded b i hi t ht := by
    unfold instsOf at hi
    rw [hb.block] at hi
    unfold kind at ht
    rw [hb.inst] at ht
    rw [hb.blocks_size]
    exact (hfits b i hi).2 t ht
  layout_nodup := by
    rw [hb.layout]
    exact hlayout
  mem_layout b := by
    rw [hb.layout, hb.blocks_size, hb.block]
    exact hmem b

/-- A change of operands or targets alone. -/
theorem Sound.becomes_insts (h : f.Sound) (hb : f.Becomes f' inst f.block f.layout)
    (hindexed : f'.IndexedBy f'.reads) (hresult : ∀ i, (inst i).result = f.result? i)
    (hgives : ∀ i r, f.result? i = some r → (inst i).kind.givesValue = true)
    (hfits : ∀ b, ∀ i ∈ f.instsOf b, (inst i).kind.fits (inst i).operands.length = true ∧
      ∀ t ∈ (inst i).kind.targets, t < f.blocks.size) (hblock : ∀ i, (inst i).block = f.blockOf? i) : f'.Sound :=
  h.becomes hb hindexed hresult hgives hfits h.nodup (fun b i => by rw [hblock]; exact h.placed b i)
    h.layout_nodup h.mem_layout

/-- A change of predecessor lists and of the slots of phis alone. -/
theorem Sound.becomes_phis (h : f.Sound) (hb : f.Becomes f' inst block f.layout) (hindexed : f'.IndexedBy f'.reads)
    (hinst : ∀ i, (inst i).result = f.result? i ∧ (inst i).kind = f.kind i ∧ (inst i).block = f.blockOf? i)
    (hslots : ∀ i, (f.kind i).isPhi = false → (inst i).operands = f.operands i)
    (hblock : ∀ b, (block b).insts = f.instsOf b ∧ (block b).removed = (f.block b).removed) : f'.Sound := by
  refine h.becomes hb hindexed (fun i => (hinst i).1) (fun i r hr => ?_) (fun b i hi => ?_) (fun b => ?_)
    (fun b i => ?_) h.layout_nodup (fun b => ?_)
  · rw [(hinst i).2.1]
    exact h.gives i r hr
  · rw [(hblock b).1] at hi
    rw [(hinst i).2.1]
    refine ⟨?_, h.bounded b i hi⟩
    cases hphi : (f.kind i).isPhi with
    | false =>
      rw [hslots i hphi]
      exact h.fits b i hi
    | true =>
      rw [InstKind.isPhi_eq_true.1 hphi]
      rfl
  · rw [(hblock b).1]
    exact h.nodup b
  · rw [(hblock b).1, (hinst i).2.2]
    exact h.placed b i
  · rw [(hblock b).2]
    exact h.mem_layout b

end Function

namespace Edit

open Edits

variable {f f' : Function}

/-- The record of a removed instruction. -/
def detached (d : InstData) : InstData := { d with operands := [], block := none }

/-- The blocks without an instruction. -/
def blocksWithout (f : Function) (i : InstId) (b : BlockId) : BlockData :=
  if f.blockOf? i = some b then { f.block b with insts := (f.instsOf b).filter (· != i) } else f.block b

/-- The last part of a removal, when the result of the instruction is dead: the operands go, and the instruction
leaves its block. -/
def unplace (i : InstId) : Edit Unit := do
  detachOperands i
  match (← get).blockOf? i with
  | some b =>
    modifyInst i fun d => { d with block := none }
    modifyBlock b fun d => { d with insts := d.insts.filter (· != i) }
  | none => pure ()

variable {b source target : BlockId} {i : InstId} {kind : InstKind} {doomed : List BlockId} {operands : List ValueId}

/-- Removing an instruction. -/
theorem removeInst_spec (h : (removeInst i).run f = (.ok (), f')) :
    i < f.insts.size ∧ (∀ r, f.result? i = some r → f.uses r = []) ∧ f'.insts.size = f.insts.size ∧
      f.Becomes f' (Function.update f.inst i (detached (f.inst i))) (blocksWithout f i) f.layout ∧
      (f.IndexedBy f.reads → f'.IndexedBy f'.reads) := by
  unfold removeInst at h
  have h₀ := of_get_bind h
  have hmark : ∃ f₁, (f.SameGraph f₁ ∧ f₁.insts.size = f.insts.size ∧ (∀ v, f₁.uses v = f.uses v) ∧
      ∀ r, f.result? i = some r → f.uses r = []) ∧ (unplace i).run f₁ = (.ok (), f') := by
    dsimp only at h₀
    split at h₀
    · rename_i r hr
      split at h₀
      · cases h₀
      · rename_i hnone
        obtain ⟨⟨⟩, f₁, hlive, h₁⟩ := bind_eq_ok h₀
        obtain ⟨-, hsame, hsize, huses⟩ := modifyUses_spec id hlive fun d => ⟨rfl, rfl⟩
        refine ⟨f₁, ⟨hsame, hsize, fun v => ?_, fun r' hr' => ?_⟩, h₁⟩
        · rw [huses]
          split
          · rename_i hv
            rw [hv]
            rfl
          · rfl
        · rw [hr] at hr'
          obtain rfl := Option.some.inj hr'
          exact List.head?_eq_none_iff.1 hnone
    · rename_i hr
      exact ⟨f, ⟨.refl f, rfl, fun _ => rfl, fun r hr' => by rw [hr] at hr'; cases hr'⟩, h₀⟩
  obtain ⟨f₁, ⟨hsame, hsize, huses, hunused⟩, h₁⟩ := hmark
  obtain ⟨⟨⟩, f₂, hdetach, h₂⟩ := bind_eq_ok h₁
  have h₃ := of_get_bind h₂
  obtain ⟨hi, hsize', hbecomes, hindex⟩ := detachOperands_spec hdetach
  rw [hsize] at hi
  have hindex' : f.IndexedBy f.reads → f₂.IndexedBy f₂.reads := by
    refine fun hindexed => hindex fun v u => ?_
    rw [huses]
    have hreads : f₁.reads u = f.reads u := by
      rw [reads_eq hsame]
      rfl
    rw [hreads]
    exact hindexed v u
  have hblock : f₂.blockOf? i = f.blockOf? i := by
    unfold Function.blockOf?
    rw [hbecomes.inst, Function.update_self, hsame.inst]
  have hinst : ∀ j, f₂.inst j = Function.update f.inst i { f.inst i with operands := [] } j := by
    intro j
    rw [hbecomes.inst]
    by_cases hj : j = i
    · rw [hj, Function.update_self, Function.update_self, hsame.inst]
    · rw [Function.update_of_ne hj, Function.update_of_ne hj, hsame.inst]
  cases hb : f.blockOf? i with
  | none =>
    rw [hblock, hb] at h₃
    cases h₃
    refine ⟨hi, hunused, hsize'.trans hsize, hsame.next hbecomes (fun j => ?_) (fun b => ?_), hindex'⟩
    · rw [← hbecomes.inst, hinst]
      by_cases hj : j = i
      · rw [hj, Function.update_self, Function.update_self, detached, ← hb]
        rfl
      · rw [Function.update_of_ne hj, Function.update_of_ne hj]
    · rw [hsame.block, blocksWithout, if_neg (by rw [hb]; simp)]
  | some b₀ =>
    rw [hblock, hb] at h₃
    obtain ⟨⟨⟩, f₅, hmodify, h₅⟩ := bind_eq_ok h₃
    obtain ⟨-, hsize₂, hbecomes₂, huses₂⟩ := modifyInst_spec hmodify
    obtain ⟨-, hsize₃, hbecomes₃, huses₃⟩ := modifyBlock_spec h₅
    have hall : f.Becomes f' (Function.update f.inst i (detached (f.inst i))) (blocksWithout f i)
        f.layout := by
      refine ⟨fun j => ?_, fun b => ?_, ?_, ?_, ?_, fun v => ?_⟩
      · rw [hbecomes₃.inst, hbecomes₂.inst]
        by_cases hj : j = i
        · rw [hj, Function.update_self, Function.update_self, hinst, Function.update_self]
          rfl
        · rw [Function.update_of_ne hj, Function.update_of_ne hj, hinst, Function.update_of_ne hj]
      · have hblocks : ∀ c, f₅.block c = f.block c := fun c => by
          rw [hbecomes₂.block, hbecomes.block, hsame.block]
        rw [hbecomes₃.block, blocksWithout, hb]
        by_cases hbb : b = b₀
        · subst hbb
          rw [Function.update_self, if_pos rfl, hblocks]
          rfl
        · rw [Function.update_of_ne hbb, if_neg (by simp [Ne.symm hbb]), hblocks]
      · rw [hbecomes₃.layout, hbecomes₂.layout, hbecomes.layout, hsame.layout]
      · rw [hbecomes₃.blocks_size, hbecomes₂.blocks_size, hbecomes.blocks_size, hsame.blocks_size]
      · rw [hbecomes₃.values_size, hbecomes₂.values_size, hbecomes.values_size, hsame.values_size]
      · rw [hbecomes₃.kinds, hbecomes₂.kinds, hbecomes.kinds, hsame.kinds]
    refine ⟨hi, hunused, ?_, hall, fun hindexed v u => ?_⟩
    · rw [hsize₃, hsize₂, hsize', hsize]
    · rw [huses₃, huses₂]
      have hreads : f'.reads u = f₂.reads u := by
        rw [reads_eq hall]
        unfold Function.reads Function.operands
        rw [hinst]
        by_cases hu : u.user = i
        · rw [hu, Function.update_self, Function.update_self]
          rfl
        · rw [Function.update_of_ne hu, Function.update_of_ne hu]
      rw [hreads]
      exact hindex' hindexed v u

/-- Removing an instruction keeps a function sound. -/
theorem sound_removeInst (hs : f.Sound) (h : (removeInst i).run f = (.ok (), f')) : f'.Sound := by
  obtain ⟨-, -, -, hbecomes, hindex⟩ := removeInst_spec h
  have hsub : ∀ b j, j ∈ (blocksWithout f i b).insts → j ≠ i ∧ j ∈ f.instsOf b := by
    intro b j hj
    unfold blocksWithout at hj
    split at hj
    · rw [List.mem_filter, bne_iff_ne] at hj
      exact hj.symm
    · rename_i hb
      refine ⟨?_, hj⟩
      rintro rfl
      exact hb ((hs.placed b j).1 hj)
  refine hs.becomes hbecomes (hindex hs.indexed) (fun j => ?_) (fun j r hr => ?_) (fun b j hj => ?_)
    (fun b => ?_) (fun b j => ?_) hs.layout_nodup (fun b => ?_)
  · exact Function.proj_update (by rfl) _
  · by_cases hj : j = i
    · rw [hj, Function.update_self]
      exact hs.gives i r (hj ▸ hr)
    · rw [Function.update_of_ne hj]
      exact hs.gives j r hr
  · obtain ⟨hne, hin⟩ := hsub b j hj
    rw [Function.update_of_ne hne]
    exact ⟨hs.fits b j hin, hs.bounded b j hin⟩
  · unfold blocksWithout
    split
    · exact (hs.nodup b).filter _
    · exact hs.nodup b
  · have hplaced := hs.placed b j
    unfold blocksWithout
    by_cases hj : j = i
    · subst hj
      rw [Function.update_self]
      split
      · simp [detached]
      · rename_i hb
        exact hplaced.trans (by simp [detached, hb])
    · rw [Function.update_of_ne hj]
      split
      · rw [List.mem_filter]
        simp only [bne_iff_ne, ne_eq, hj, not_false_eq_true, and_true]
        exact hplaced
      · exact hplaced
  · rw [hs.mem_layout]
    unfold blocksWithout
    split <;> rfl

/-- The record behind the last one. -/
theorem inst_of_size_le (h : f.insts.size ≤ i) : f.inst i = default := by
  unfold Function.inst
  rw [Array.getD_eq_getD_getElem?, Array.getElem?_eq_none h]
  rfl

/-- The records after one was added. -/
theorem inst_push (d : InstData) (j : InstId) :
    Function.inst { f with insts := f.insts.push d } j = Function.update f.inst f.insts.size d j := by
  unfold Function.inst
  rw [Array.getD_eq_getD_getElem?, Array.getElem?_push, Function.update_apply]
  by_cases hj : j = f.insts.size
  · simp [hj]
  · simp [hj, Array.getD_eq_getD_getElem?]

/-- The index after slots of a new instruction were entered. -/
theorem indexed_push (g : Function) {f₁ : Function} {result : Option ValueId} (hinst : ∀ i, g.inst i = f.inst i)
    (hsize : g.insts.size = f.insts.size) (huses : ∀ v, g.uses v = f.uses v)
    (h : (addUses f.insts.size 0 operands).run g = (.ok (), f₁)) (hindexed : f.IndexedBy f.reads) :
    Function.IndexedBy { f₁ with insts := f₁.insts.push { kind, operands, result } }
      (Function.reads { f₁ with insts := f₁.insts.push { kind, operands, result } }) := by
  obtain ⟨hsame, hsize', hindex⟩ := addUses_spec h
  have hfree : ∀ s, 0 ≤ s → f.reads ⟨f.insts.size, s⟩ = none := by
    intro s _
    unfold Function.reads Function.operands
    rw [inst_of_size_le (Nat.le_refl _)]
    rfl
  have hindexed' : Function.IndexedBy { f₁ with insts := f₁.insts.push { kind, operands, result } } _ :=
    hindex f.reads (fun v u => by rw [huses]; exact hindexed v u) hfree
  refine hindexed'.congr fun u => ?_
  unfold Function.reads Function.operands
  rw [inst_push, hsize', hsize, written]
  by_cases hu : u.user = f.insts.size
  · rw [hu, Function.update_self, if_pos ⟨rfl, Nat.zero_le _⟩, Nat.sub_zero]
  · rw [Function.update_of_ne hu, if_neg (by simp [hu]), hsame.inst, hinst]

/-- Adding an instruction without a result. -/
theorem createInst_spec (h : (createInst kind operands false).run f = (.ok i, f')) :
    i = f.insts.size ∧ f'.insts.size = f.insts.size + 1 ∧
      f.Becomes f' (Function.update f.inst i { kind, operands, result := none }) f.block f.layout ∧
      (f.IndexedBy f.reads → f'.IndexedBy f'.reads) := by
  unfold createInst at h
  have h₀ := of_get_bind h
  obtain ⟨result, f₁, hresult, h₁⟩ := bind_eq_ok h₀
  cases hresult
  obtain ⟨⟨⟩, f₂, huses, h₂⟩ := bind_eq_ok h₁
  obtain ⟨⟨⟩, f₃, hpush, h₃⟩ := bind_eq_ok h₂
  cases hpush
  cases h₃
  obtain ⟨hsame, hsize, -⟩ := addUses_spec huses
  refine ⟨rfl, by simp [hsize], ⟨fun j => ?_, hsame.block, hsame.layout, hsame.blocks_size, hsame.values_size, hsame.kinds⟩,
    indexed_push f (fun _ => rfl) rfl (fun _ => rfl) huses⟩
  rw [inst_push, hsize, Function.update_apply, Function.update_apply, hsame.inst]

variable {pred : BlockId} {condition found : Bool} {n : InstId} {insts : List InstId} {idx : Nat} {text : String}

/-- A condition that was demanded holds. -/
theorem demand_eq_ok (h : (demand condition text).run f = (.ok (), f')) : condition = true ∧ f = f' := by
  unfold demand at h
  split at h
  · rename_i hcond
    cases h
    exact ⟨hcond, rfl⟩
  · obtain ⟨g, f₁, -, h₁⟩ := bind_eq_ok h
    cases h₁

/-- What is done when a condition that was demanded holds. -/
theorem demand_bind_eq_ok {next : Unit → Edit α} {a : α} (h : (demand condition text >>= next).run f = (.ok a, f')) :
    condition = true ∧ (next ()).run f = (.ok a, f') := by
  obtain ⟨⟨⟩, f₁, hdemand, hrest⟩ := bind_eq_ok h
  obtain ⟨hcondition, rfl⟩ := demand_eq_ok hdemand
  exact ⟨hcondition, hrest⟩

/-- Putting a detached instruction at a place of a block. -/
theorem place_spec {pos : Nat} (h : (place b pos i).run f = (.ok (), f')) :
    f.blockOf? i = none ∧ b < f.blocks.size ∧ i < f.insts.size ∧ f'.insts.size = f.insts.size ∧
      f.Becomes f' (Function.update f.inst i { f.inst i with block := some b })
        (Function.update f.block b { f.block b with insts := (f.instsOf b).insertIdx pos i }) f.layout ∧
      ∀ v, f'.uses v = f.uses v := by
  unfold place at h
  have h₀ := of_get_bind h
  obtain ⟨⟨⟩, f₁, hdemand, h₁⟩ := bind_eq_ok h₀
  obtain ⟨⟨⟩, f₂, hblock, h₂⟩ := bind_eq_ok h₁
  obtain ⟨hnone, rfl⟩ := demand_eq_ok hdemand
  have hfree : f.blockOf? i = none := Option.isNone_iff_eq_none.1 hnone
  obtain ⟨hb, hsize, hbecomes, huses⟩ := modifyBlock_spec hblock
  obtain ⟨hi, hsize', hbecomes', huses'⟩ := modifyInst_spec h₂
  refine ⟨hfree, hb, hsize ▸ hi, hsize'.trans hsize, hbecomes.next hbecomes' (fun j => ?_) hbecomes.block,
    fun v => (huses' v).trans (huses v)⟩
  rw [Function.update_apply, Function.update_apply, hbecomes.inst, hbecomes.inst]

/-- Appending a detached instruction. -/
theorem pushBack_spec (h : (pushBack b i).run f = (.ok (), f')) :
    f.blockOf? i = none ∧ b < f.blocks.size ∧ f'.insts.size = f.insts.size ∧
      f.Becomes f' (Function.update f.inst i { f.inst i with block := some b })
        (Function.update f.block b { f.block b with insts := f.instsOf b ++ [i] }) f.layout ∧
      ∀ v, f'.uses v = f.uses v := by
  unfold pushBack at h
  have h₀ := of_get_bind h
  obtain ⟨-, h₁⟩ := demand_bind_eq_ok h₀
  have hplace : (place b (f.instsOf b).length i).run f = (.ok (), f') := by
    dsimp only at h₁
    split at h₁
    · obtain ⟨⟨⟩, f₂, hcrash, -⟩ := bind_eq_ok h₁
      cases hcrash
    · exact h₁
  obtain ⟨hfree, hb, -, hsize, hbecomes, huses⟩ := place_spec hplace
  rw [List.insertIdx_length_self] at hbecomes
  exact ⟨hfree, hb, hsize, hbecomes, huses⟩

/-- The terminator of a block is its last instruction. -/
theorem terminator_eq_ok {t : InstId} :
    f.terminator b = .ok t ↔ (f.instsOf b).getLast? = some t ∧ (f.kind t).isTerminator = true := by
  unfold Function.terminator
  constructor
  · intro h
    split at h
    · rename_i i hi
      split at h
      · rename_i hterm
        cases h
        exact ⟨hi, hterm⟩
      · cases h
    · cases h
  · rintro ⟨hlast, hterm⟩
    rw [hlast]
    dsimp only
    rw [if_pos hterm]

/-- Exchanging the terminator of a block. -/
theorem replaceTerminator_spec (hs : f.Sound) (h : (replaceTerminator b kind operands).run f = (.ok n, f')) :
    ∃ old, f.terminator b = .ok old ∧ n = f.insts.size ∧ old < n ∧
      f.Becomes f' (Function.update (Function.update f.inst old (detached (f.inst old))) n
          { kind, operands, result := none, block := some b })
        (Function.update f.block b { f.block b with insts := (f.instsOf b).filter (· != old) ++ [n] })
        f.layout ∧ f'.IndexedBy f'.reads := by
  unfold replaceTerminator at h
  obtain ⟨old, hold, h₁⟩ := ask_bind_eq_ok h
  obtain ⟨⟨⟩, f₂, hremove, h₂⟩ := bind_eq_ok h₁
  obtain ⟨i, f₃, hcreate, h₃⟩ := bind_eq_ok h₂
  obtain ⟨⟨⟩, f₄, hpush, h₄⟩ := bind_eq_ok h₃
  cases h₄
  obtain ⟨hlt, -, hsize, hbecomes, hindex⟩ := removeInst_spec hremove
  obtain ⟨hn, -, hbecomes₂, hindex₂⟩ := createInst_spec hcreate
  obtain ⟨-, -, -, hbecomes₃, huses₃⟩ := pushBack_spec hpush
  rw [hsize] at hn
  subst hn
  have hblock : f.blockOf? old = some b :=
    (hs.placed b old).1 (List.mem_of_getLast? (terminator_eq_ok.1 hold).1)
  have hall : f.Becomes f' (Function.update (Function.update f.inst old (detached (f.inst old)))
      f.insts.size { kind, operands, result := none, block := some b })
      (Function.update f.block b { f.block b with
        insts := (f.instsOf b).filter (· != old) ++ [f.insts.size] }) f.layout := by
    refine ⟨fun j => ?_, fun c => ?_, ?_, ?_, ?_, fun v => ?_⟩
    · rw [hbecomes₃.inst]
      by_cases hj : j = f.insts.size
      · rw [hj, Function.update_self, Function.update_self, hbecomes₂.inst, Function.update_self]
      · rw [Function.update_of_ne hj, Function.update_of_ne hj, hbecomes₂.inst, Function.update_of_ne hj,
          hbecomes.inst]
    · have hblocks : ∀ c, f₃.block c = blocksWithout f old c := fun c => by
        rw [hbecomes₂.block, hbecomes.block]
      rw [hbecomes₃.block]
      by_cases hc : c = b
      · subst hc
        unfold Function.instsOf
        rw [Function.update_self, Function.update_self, hblocks, blocksWithout, if_pos hblock]
        rfl
      · rw [Function.update_of_ne hc, Function.update_of_ne hc, hblocks, blocksWithout,
          if_neg (by rw [hblock]; simp [Ne.symm hc])]
    · rw [hbecomes₃.layout, hbecomes₂.layout, hbecomes.layout]
    · rw [hbecomes₃.blocks_size, hbecomes₂.blocks_size, hbecomes.blocks_size]
    · rw [hbecomes₃.values_size, hbecomes₂.values_size, hbecomes.values_size]
    · rw [hbecomes₃.kinds, hbecomes₂.kinds, hbecomes.kinds]
  refine ⟨old, hold, rfl, hlt, hall, fun v u => ?_⟩
  rw [huses₃]
  have hreads : f'.reads u = f₃.reads u := by
    unfold Function.reads Function.operands
    rw [hbecomes₃.inst]
    exact Function.proj_update (p := fun d : InstData => d.operands[u.slot]?) (by rfl) _
  rw [hreads]
  exact hindex₂ (hindex hs.indexed) v u

/-- Exchanging a terminator for one that fits its operands keeps a function sound. -/
theorem sound_replaceTerminator (hs : f.Sound) (hfits : kind.fits operands.length = true)
    (htargets : ∀ t ∈ kind.targets, t < f.blocks.size) (h : (replaceTerminator b kind operands).run f = (.ok n, f')) :
    f'.Sound := by
  obtain ⟨old, hold, rfl, hlt, hbecomes, hindexed⟩ := replaceTerminator_spec hs h
  have hmem : old ∈ f.instsOf b := List.mem_of_getLast? (terminator_eq_ok.1 hold).1
  have hfree : ∀ c, f.insts.size ∉ f.instsOf c := by
    intro c hin
    have hblock := (hs.placed c _).1 hin
    unfold Function.blockOf? at hblock
    rw [inst_of_size_le (Nat.le_refl _)] at hblock
    cases hblock
  refine hs.becomes hbecomes hindexed (fun i => ?_) (fun i r hr => ?_) (fun c i hi => ?_) (fun c => ?_)
    (fun c i => ?_) hs.layout_nodup (fun c => ?_)
  · by_cases hi : i = f.insts.size
    · rw [hi, Function.update_self]
      unfold Function.result?
      rw [inst_of_size_le (Nat.le_refl _)]
      rfl
    · rw [Function.update_of_ne hi]
      exact Function.proj_update (by rfl) _
  · have hne : i ≠ f.insts.size := by
      rintro rfl
      unfold Function.result? at hr
      rw [inst_of_size_le (Nat.le_refl _)] at hr
      cases hr
    rw [Function.update_of_ne hne, Function.update_apply]
    split
    · rename_i hio
      rw [hio] at hr
      exact hs.gives old r hr
    · exact hs.gives i r hr
  · have hcases : (i = f.insts.size) ∨ (i ≠ old ∧ i ∈ f.instsOf c) := by
      rw [Function.update_apply] at hi
      split at hi
      · rename_i hc
        rcases List.mem_append.1 hi with hin | hin
        · rw [List.mem_filter, bne_iff_ne] at hin
          exact .inr ⟨hin.2, hc ▸ hin.1⟩
        · exact .inl (List.mem_singleton.1 hin)
      · rename_i hc
        refine .inr ⟨?_, hi⟩
        rintro rfl
        have hone := (hs.placed c i).1 hi
        rw [(hs.placed b i).1 hmem] at hone
        exact hc (Option.some.inj hone).symm
    rcases hcases with rfl | ⟨hio, hin⟩
    · rw [Function.update_self]
      exact ⟨hfits, htargets⟩
    · have hne : i ≠ f.insts.size := by
        rintro rfl
        exact hfree c hin
      rw [Function.update_of_ne hne, Function.update_of_ne hio]
      exact ⟨hs.fits c i hin, hs.bounded c i hin⟩
  · rw [Function.update_apply]
    split
    · refine List.nodup_append.2 ⟨(hs.nodup b).filter _, List.nodup_singleton _, ?_⟩
      rintro i hi j hj rfl
      rw [List.mem_singleton.1 hj] at hi
      exact hfree b (List.mem_filter.1 hi).1
    · exact hs.nodup c
  · have hplaced := hs.placed c i
    by_cases hn : i = f.insts.size
    · subst hn
      rw [Function.update_self, Function.update_apply]
      split
      · rename_i hc
        simp [hc]
      · rename_i hc
        exact ⟨fun hin => absurd hin (hfree c), fun heq => absurd (Option.some.inj heq).symm hc⟩
    · rw [Function.update_of_ne hn]
      have hinsts : i ∈ (Function.update f.block b { f.block b with
          insts := (f.instsOf b).filter (· != old) ++ [f.insts.size] } c).insts ↔
          i ∈ f.instsOf c ∧ i ≠ old := by
        rw [Function.update_apply]
        split
        · rename_i hc
          simp [hc, hn]
        · rename_i hc
          refine ⟨fun hin => ⟨hin, ?_⟩, fun hin => hin.1⟩
          rintro rfl
          have hone := hplaced.1 hin
          rw [(hs.placed b i).1 hmem] at hone
          exact hc (Option.some.inj hone).symm
      rw [hinsts, hplaced, Function.update_apply]
      split
      · rename_i hio
        simp [hio, detached]
      · rename_i hio
        simp only [ne_eq, hio, not_false_eq_true, and_true]
        rfl
  · rw [hs.mem_layout, Function.update_apply]
    split
    · rename_i hc
      rw [hc]
    · rfl

/-! ## Removing blocks -/

/-- The record of a removed block. -/
def emptied (d : BlockData) : BlockData := { d with insts := [], preds := [], removed := true }

/-- Taking the operands of many instructions. -/
theorem forM_detachOperands_spec (h : (insts.forM detachOperands).run f = (.ok (), f')) :
    f.Becomes f' (fun i => if i ∈ insts then { f.inst i with operands := [] } else f.inst i) f.block
      f.layout ∧ (f.IndexedBy f.reads → f'.IndexedBy f'.reads) := by
  -- An instruction may be listed more than once.
  refine forM_builds (P := fun done g =>
    f.Becomes g (fun i => if i ∈ done then { f.inst i with operands := [] } else f.inst i) f.block
      f.layout ∧ (f.IndexedBy f.reads → g.IndexedBy g.reads)) ?_ ⟨.refl f, id⟩ h
  rintro done a g g' ⟨hbecomes, hindex⟩ hrun
  obtain ⟨-, -, hbecomes', hindex'⟩ := detachOperands_spec hrun
  refine ⟨hbecomes.next hbecomes' (fun i => ?_) hbecomes.block, fun hindexed => hindex' (hindex hindexed)⟩
  by_cases hi : i = a
  · rw [hi, Function.update_self, if_pos (by simp), hbecomes.inst]
    split <;> rfl
  · rw [Function.update_of_ne hi, hbecomes.inst]
    simp [hi]

theorem forM_removeInst_spec (h : (insts.forM removeInst).run f = (.ok (), f'))
    (hplaced : ∀ b i, i ∈ f.instsOf b ↔ f.blockOf? i = some b) :
    f.Becomes f' (fun i => if i ∈ insts then detached (f.inst i) else f.inst i)
      (fun b => { f.block b with insts := (f.instsOf b).filter fun i => decide (i ∉ insts) }) f.layout ∧
      (f.IndexedBy f.reads → f'.IndexedBy f'.reads) := by
  refine forM_builds (P := fun done g =>
    f.Becomes g (fun i => if i ∈ done then detached (f.inst i) else f.inst i)
      (fun b => { f.block b with insts := (f.instsOf b).filter fun i => decide (i ∉ done) }) f.layout ∧
      (f.IndexedBy f.reads → g.IndexedBy g.reads)) ?_ ?_ h
  · rintro before a g g' ⟨hbecomes, hindex⟩ hrun
    obtain ⟨-, -, -, hbecomes', hindex'⟩ := removeInst_spec hrun
    refine ⟨hbecomes.next hbecomes' (fun i => ?_) (fun b => ?_), fun hindexed => hindex' (hindex hindexed)⟩
    · by_cases hi : i = a
      · rw [hi, Function.update_self, if_pos (by simp), hbecomes.inst]
        split <;> rfl
      · rw [Function.update_of_ne hi, hbecomes.inst]
        simp [hi]
    · -- The instruction is struck from the block that lists it, unless that was done before.
      have hblock : g.block b = { f.block b with
          insts := (f.instsOf b).filter fun i => decide (i ∉ before) } := hbecomes.block b
      have hof : g.blockOf? a = if a ∈ before then none else f.blockOf? a := by
        unfold Function.blockOf?
        rw [hbecomes.inst]
        split <;> rfl
      have hfilter : (f.instsOf b).filter (fun i => decide (i ∉ before ++ [a])) =
          ((f.instsOf b).filter fun i => decide (i ∉ before)).filter (· != a) := by
        rw [List.filter_filter]
        refine List.filter_congr fun i _ => ?_
        simp only [List.mem_append, List.mem_singleton, not_or, bne, Bool.decide_and, Bool.and_comm]
        by_cases hia : i = a <;> simp [hia]
      have hsame : (f.blockOf? a ≠ some b ∨ a ∈ before) →
          ((f.instsOf b).filter fun i => decide (i ∉ before)).filter (· != a) =
            (f.instsOf b).filter fun i => decide (i ∉ before) := by
        refine fun hcase => List.filter_eq_self.2 fun i hi => ?_
        rw [List.mem_filter, decide_eq_true_iff] at hi
        rw [bne_iff_ne]
        rintro rfl
        rcases hcase with hb | hin
        · exact hb ((hplaced b i).1 hi.1)
        · exact hi.2 hin
      rw [blocksWithout, hof, hfilter]
      by_cases ha : a ∈ before
      · rw [if_pos ha, if_neg (by simp), hblock, hsame (.inr ha)]
      · rw [if_neg ha]
        split
        · unfold Function.instsOf
          rw [hblock]
          rfl
        · rename_i hb
          rw [hblock, hsame (.inl hb)]
  · refine ⟨⟨fun _ => rfl, fun b => ?_, rfl, rfl, rfl, fun _ => rfl⟩, id⟩
    rw [List.filter_eq_self.2 (by simp)]
    rfl

theorem forM_markRemoved_spec (h : (doomed.forM fun b => modifyBlock b fun d =>
      { d with removed := true, preds := [] }).run f = (.ok (), f')) :
    f.Becomes f' f.inst (fun b => if b ∈ doomed then { f.block b with removed := true, preds := [] }
      else f.block b) f.layout ∧ ∀ v, f'.uses v = f.uses v := by
  refine forM_builds (P := fun done g =>
    f.Becomes g f.inst (fun b => if b ∈ done then { f.block b with removed := true, preds := [] }
      else f.block b) f.layout ∧ ∀ v, g.uses v = f.uses v) ?_ ⟨.refl f, fun _ => rfl⟩ h
  rintro done a g g' ⟨hbecomes, huses⟩ hrun
  obtain ⟨-, -, hbecomes', huses'⟩ := modifyBlock_spec hrun
  refine ⟨hbecomes.next hbecomes' hbecomes.inst (fun b => ?_), fun v => (huses' v).trans (huses v)⟩
  by_cases hb : b = a
  · rw [hb, Function.update_self, if_pos (by simp), hbecomes.block]
    split <;> rfl
  · rw [Function.update_of_ne hb, hbecomes.block]
    simp [hb]

/-- Removing blocks of a function that lists its instructions where they stand. -/
theorem removeBlocks_becomes (hindexed : f.IndexedBy f.reads)
    (hlisted : ∀ b i, i ∈ f.instsOf b ↔ f.blockOf? i = some b) (h : (removeBlocks doomed).run f = (.ok (), f')) :
    f.Becomes f' (fun i => if i ∈ doomed.flatMap f.instsOf then detached (f.inst i) else f.inst i)
      (fun b => if b ∈ doomed then emptied (f.block b) else f.block b)
      (f.layout.filter fun b => !doomed.contains b) ∧ f'.IndexedBy f'.reads := by
  unfold removeBlocks at h
  have h₀ := of_get_bind h
  obtain ⟨⟨⟩, f₁, hdetach, h₁⟩ := bind_eq_ok h₀
  obtain ⟨⟨⟩, f₂, hremove, h₂⟩ := bind_eq_ok h₁
  obtain ⟨⟨⟩, f₃, hmark, h₃⟩ := bind_eq_ok h₂
  cases h₃
  obtain ⟨hb₁, hindex₁⟩ := forM_detachOperands_spec hdetach
  have hplaced : ∀ b i, i ∈ f₁.instsOf b ↔ f₁.blockOf? i = some b := by
    intro b i
    unfold Function.instsOf Function.blockOf?
    rw [hb₁.block, hb₁.inst]
    split <;> exact hlisted b i
  obtain ⟨hb₂, hindex₂⟩ := forM_removeInst_spec hremove hplaced
  obtain ⟨hb₃, huses₃⟩ := forM_markRemoved_spec hmark
  have hgone : ∀ b, (f₁.instsOf b).filter (fun i => decide (i ∉ doomed.flatMap f.instsOf)) =
      if b ∈ doomed then [] else f.instsOf b := by
    intro b
    have hinsts : f₁.instsOf b = f.instsOf b := by
      unfold Function.instsOf
      rw [hb₁.block]
    rw [hinsts]
    split
    · rename_i hb
      refine List.filter_eq_nil_iff.2 fun i hi => ?_
      simp only [decide_not, Bool.not_eq_true', decide_eq_false_iff_not, not_not]
      exact List.mem_flatMap.2 ⟨b, hb, hi⟩
    · rename_i hb
      refine List.filter_eq_self.2 fun i hi => ?_
      rw [decide_eq_true_iff]
      intro hin
      obtain ⟨d, hd, hid⟩ := List.mem_flatMap.1 hin
      have hone := (hlisted d i).1 hid
      rw [(hlisted b i).1 hi] at hone
      exact hb (Option.some.inj hone ▸ hd)
  refine ⟨⟨fun i => ?_, fun b => ?_, ?_, ?_, ?_, fun v => ?_⟩, fun v u => ?_⟩
  · change f₃.inst i = _
    rw [hb₃.inst, hb₂.inst, hb₁.inst]
    split <;> rfl
  · change f₃.block b = _
    rw [hb₃.block, hb₂.block, hgone, hb₁.block]
    split <;> rfl
  · change f₃.layout.filter _ = _
    rw [hb₃.layout, hb₂.layout, hb₁.layout]
  · exact (hb₃.blocks_size.trans hb₂.blocks_size).trans hb₁.blocks_size
  · exact (hb₃.values_size.trans hb₂.values_size).trans hb₁.values_size
  · exact ((hb₃.kinds v).trans (hb₂.kinds v)).trans (hb₁.kinds v)
  · change (f₃.uses v).count u = if f₃.reads u = some v then 1 else 0
    rw [huses₃, reads_eq hb₃]
    exact hindex₂ (hindex₁ hindexed) v u

/-- Removing blocks of a sound function. -/
theorem removeBlocks_spec (hs : f.Sound) (h : (removeBlocks doomed).run f = (.ok (), f')) :
    f.Becomes f' (fun i => if i ∈ doomed.flatMap f.instsOf then detached (f.inst i) else f.inst i)
      (fun b => if b ∈ doomed then emptied (f.block b) else f.block b)
      (f.layout.filter fun b => !doomed.contains b) ∧ f'.IndexedBy f'.reads :=
  removeBlocks_becomes hs.indexed hs.placed h

theorem sound_removeBlocks (hs : f.Sound) (h : (removeBlocks doomed).run f = (.ok (), f')) : f'.Sound := by
  obtain ⟨hbecomes, hindexed⟩ := removeBlocks_spec hs h
  have hkept : ∀ {b i}, b ∉ doomed → i ∈ f.instsOf b → i ∉ doomed.flatMap f.instsOf := by
    intro b i hb hi hin
    obtain ⟨d, hd, hid⟩ := List.mem_flatMap.1 hin
    have hone := (hs.placed d i).1 hid
    rw [(hs.placed b i).1 hi] at hone
    exact hb (Option.some.inj hone ▸ hd)
  refine hs.becomes hbecomes hindexed (fun i => ?_) (fun i r hr => ?_) (fun b i hi => ?_) (fun b => ?_)
    (fun b i => ?_) (hs.layout_nodup.filter _) (fun b => ?_)
  · split <;> rfl
  · split <;> exact hs.gives i r hr
  · split at hi
    · cases hi
    · rename_i hb
      rw [if_neg (hkept hb hi)]
      exact ⟨hs.fits b i hi, hs.bounded b i hi⟩
  · split
    · exact List.nodup_nil
    · exact hs.nodup b
  · split
    · rename_i hb
      refine ⟨fun hin => absurd hin List.not_mem_nil, fun hblock => ?_⟩
      split at hblock
      · cases hblock
      · rename_i hin
        exact absurd (List.mem_flatMap.2 ⟨b, hb, (hs.placed b i).2 hblock⟩) hin
    · rename_i hb
      split
      · rename_i hin
        exact ⟨fun hi => absurd hin (hkept hb hi), fun hblock => by cases hblock⟩
      · exact hs.placed b i
  · rw [List.mem_filter, hs.mem_layout]
    by_cases hb : b ∈ doomed
    · simp [hb, emptied]
    · simp [hb]

/-! ## Predecessors and targets -/

/-- The instructions with a slot removed from some of them. -/
def withoutSlot (f : Function) (phis : List InstId) (slot : Nat) (i : InstId) : InstData :=
  if i ∈ phis then { f.inst i with operands := (f.operands i).eraseIdx slot } else f.inst i

/-- Removing a predecessor with its slot in every phi. -/
theorem removePredAt_spec (hs : f.Sound) (h : (removePredAt b idx).run f = (.ok (), f')) :
    b < f.blocks.size ∧ idx < (f.preds b).length ∧ f'.insts.size = f.insts.size ∧
      f.Becomes f' (withoutSlot f (f.phis b) idx)
        (Function.update f.block b { f.block b with preds := (f.preds b).eraseIdx idx }) f.layout ∧
      f'.IndexedBy f'.reads := by
  unfold removePredAt at h
  have h₀ := of_get_bind h
  obtain ⟨⟨⟩, f₁, hphis, h₁⟩ := bind_eq_ok h₀
  have h₂ := of_get_bind h₁
  have hnodup : (f.phis b).Nodup := (hs.nodup b).sublist (List.takeWhile_sublist _)
  -- What holds when the phis in `rest` still have the slot.
  let P := fun (rest : List InstId) (g : Function) => g.insts.size = f.insts.size ∧
    f.Becomes g (fun i => if i ∈ rest then f.inst i else withoutSlot f (f.phis b) idx i) f.block f.layout ∧
    g.IndexedBy g.reads
  have hstart : P (f.phis b) f := by
    refine ⟨rfl, ⟨fun i => ?_, fun _ => rfl, rfl, rfl, rfl, fun _ => rfl⟩, hs.indexed⟩
    unfold withoutSlot
    split <;> rfl
  have hend : P [] f₁ := by
    refine forM_keeps (P := P) ?_ hstart hphis
    rintro phi rest g g' hsuffix ⟨hsize, hbecomes, hindexed⟩ hrun
    obtain ⟨-, -, hsize', hbecomes', hindex⟩ := removeOperand_spec hrun
    have hmem : phi ∈ f.phis b := hsuffix.subset List.mem_cons_self
    have hnot : phi ∉ rest := (List.nodup_cons.1 (hnodup.sublist hsuffix.sublist)).1
    refine ⟨hsize'.trans hsize, hbecomes.next hbecomes' (fun i => ?_) hbecomes.block, hindex hindexed⟩
    have hphi : g.inst phi = f.inst phi := by rw [hbecomes.inst, if_pos List.mem_cons_self]
    by_cases hi : i = phi
    · rw [hi, Function.update_self, if_neg hnot, withoutSlot, if_pos hmem]
      unfold Function.operands
      rw [hphi]
    · rw [Function.update_of_ne hi, hbecomes.inst]
      simp [hi]
  obtain ⟨hsize, hbecomes, hindexed⟩ := hend
  split at h₂
  · rename_i hidx
    obtain ⟨hb, hsize', hbecomes', huses⟩ := modifyBlock_spec h₂
    have hpreds : f₁.preds b = f.preds b := by
      unfold Function.preds
      rw [hbecomes.block]
    rw [hpreds] at hidx
    rw [hbecomes.blocks_size] at hb
    refine ⟨hb, hidx, hsize'.trans hsize, hbecomes.next hbecomes' (fun i => ?_) (fun c => ?_), fun v u => ?_⟩
    · rw [hbecomes.inst, if_neg List.not_mem_nil]
    · rw [Function.update_apply, Function.update_apply, hbecomes.block, hbecomes.block]
      rfl
    · rw [huses]
      have hreads : f'.reads u = f₁.reads u := by
        unfold Function.reads Function.operands
        rw [hbecomes'.inst]
      rw [hreads]
      exact hindexed v u
  · cases h₂

/-- Removing a predecessor keeps a function sound. -/
theorem sound_removePredAt (hs : f.Sound) (h : (removePredAt b idx).run f = (.ok (), f')) : f'.Sound := by
  obtain ⟨-, -, -, hbecomes, hindexed⟩ := removePredAt_spec hs h
  refine hs.becomes_phis hbecomes hindexed (fun i => ?_) (fun i hi => ?_) (fun c => ?_)
  · unfold withoutSlot
    split <;> exact ⟨rfl, rfl, rfl⟩
  · unfold withoutSlot
    rw [if_neg fun hin => by rw [f.isPhi_of_mem_phis hin] at hi; cases hi]
    rfl
  · rw [Function.update_apply]
    split
    · rename_i hc
      rw [hc]
      exact ⟨rfl, rfl⟩
    · exact ⟨rfl, rfl⟩

/-- Adding a predecessor. -/
theorem addPred_spec (h : (addPred b pred).run f = (.ok (), f')) : b < f.blocks.size ∧ f'.insts.size = f.insts.size ∧
      f.Becomes f' f.inst (Function.update f.block b { f.block b with preds := f.preds b ++ [pred] })
        f.layout ∧ ∀ v, f'.uses v = f.uses v := modifyBlock_spec h

/-- Redirecting an arm. -/
theorem redirectTarget_spec (h : (redirectTarget i source target).run f = (.ok found, f')) :
    (found = false ∧ f = f') ∨ ∃ kind, (f.kind i).redirect? source target = some kind ∧ found = true ∧
      i < f.insts.size ∧ f'.insts.size = f.insts.size ∧
      f.Becomes f' (Function.update f.inst i { f.inst i with kind }) f.block f.layout ∧
      ∀ v, f'.uses v = f.uses v := by
  unfold redirectTarget at h
  have h₀ := of_get_bind h
  split at h₀
  · rename_i kind hkind
    obtain ⟨⟨⟩, f₁, hmodify, h₁⟩ := bind_eq_ok h₀
    cases h₁
    obtain ⟨hi, hsize, hbecomes, huses⟩ := modifyInst_spec hmodify
    exact .inr ⟨kind, hkind, rfl, hi, hsize, hbecomes, huses⟩
  · cases h₀
    exact .inl ⟨rfl, rfl⟩

/-- Adding a slot to a phi keeps a function sound. -/
theorem sound_pushOperand {v : ValueId} (hs : f.Sound) (hphi : (f.kind i).isPhi = true)
    (h : (pushOperand i v).run f = (.ok (), f')) : f'.Sound := by
  obtain ⟨-, -, -, hbecomes, hindex⟩ := pushOperand_spec h
  refine hs.becomes_phis hbecomes (hindex hs.indexed) (fun j => ?_) (fun j hj => ?_) fun c => ⟨rfl, rfl⟩
  · rw [Function.update_apply]
    split
    · rename_i hji
      rw [hji]
      exact ⟨rfl, rfl, rfl⟩
    · exact ⟨rfl, rfl, rfl⟩
  · rw [Function.update_of_ne]
    · rfl
    · rintro rfl
      rw [hphi] at hj
      cases hj

theorem sound_addPred (hs : f.Sound) (h : (addPred b pred).run f = (.ok (), f')) : f'.Sound := by
  obtain ⟨-, -, hbecomes, huses⟩ := addPred_spec h
  refine hs.becomes_phis hbecomes (fun v u => ?_) (fun j => ⟨rfl, rfl, rfl⟩) (fun j _ => rfl) fun c => ?_
  · rw [huses, reads_eq hbecomes]
    exact hs.indexed v u
  · rw [Function.update_apply]
    split
    · rename_i hc
      rw [hc]
      exact ⟨rfl, rfl⟩
    · exact ⟨rfl, rfl⟩

/-- A kind with an arm redirected is of the same sort. -/
theorem redirect_sort {kind' : InstKind} (h : kind.redirect? source target = some kind') :
    kind'.givesValue = kind.givesValue ∧ (∀ n, kind'.fits n = kind.fits n) ∧
      ∀ t ∈ kind'.targets, t ∈ kind.targets ∨ t = target := by
  unfold InstKind.redirect? at h
  split at h
  · split at h
    · cases h
      exact ⟨rfl, fun _ => rfl, fun t ht => .inr (List.mem_singleton.1 ht)⟩
    · cases h
  · split at h
    · cases h
      refine ⟨rfl, fun _ => rfl, fun t ht => ?_⟩
      simp only [InstKind.targets, List.mem_cons, List.not_mem_nil, or_false] at ht ⊢
      rcases ht with ht | ht
      · exact .inr ht
      · exact .inl (.inr ht)
    · split at h
      · cases h
        refine ⟨rfl, fun _ => rfl, fun t ht => ?_⟩
        simp only [InstKind.targets, List.mem_cons, List.not_mem_nil, or_false] at ht ⊢
        rcases ht with ht | ht
        · exact .inl (.inl ht)
        · exact .inr ht
      · cases h
  · cases h

/-- Redirecting an arm to a block that exists keeps a function sound. -/
theorem sound_redirectTarget (hs : f.Sound) (htarget : target < f.blocks.size)
    (h : (redirectTarget i source target).run f = (.ok found, f')) : f'.Sound := by
  rcases redirectTarget_spec h with ⟨-, rfl⟩ | ⟨kind, hkind, -, -, -, hbecomes, huses⟩
  · exact hs
  · obtain ⟨hgives, hfits, htargets⟩ := redirect_sort hkind
    refine hs.becomes_insts hbecomes (fun v u => ?_) (fun j => ?_) (fun j r hr => ?_) (fun b j hj => ?_)
      fun j => ?_
    · have hreads : f'.reads u = f.reads u := by
        rw [reads_eq hbecomes, Function.update_apply]
        split
        · rename_i hu
          unfold Function.reads Function.operands
          rw [hu]
        · rfl
      rw [huses, hreads]
      exact hs.indexed v u
    · exact Function.proj_update (by rfl) _
    · rw [Function.update_apply]
      split
      · rename_i hji
        rw [hji] at hr
        exact hgives.trans (hs.gives i r hr)
      · exact hs.gives j r hr
    · rw [Function.update_apply]
      split
      · rename_i hji
        rw [hji] at hj
        refine ⟨(hfits _).trans (hs.fits b i hj), fun t ht => ?_⟩
        rcases htargets t ht with ht | rfl
        · exact hs.bounded b i hj t ht
        · exact htarget
      · exact ⟨hs.fits b j hj, hs.bounded b j hj⟩
    · exact Function.proj_update (by rfl) _

theorem forM_pushOperand_spec {carried : List (InstId × ValueId)} :
    ∀ {f f' : Function}, f.Sound → (∀ e ∈ carried, (f.kind e.1).isPhi = true) →
      (carried.map Prod.fst).Nodup →
      (carried.forM fun e => pushOperand e.1 e.2).run f = (.ok (), f') →
      f'.Sound ∧ f.Becomes f' f'.inst f.block f.layout ∧
        (∀ i, f'.inst i = { f.inst i with operands := f'.operands i }) ∧
        (∀ e ∈ carried, f'.operands e.1 = f.operands e.1 ++ [e.2]) ∧
        ∀ i, i ∉ carried.map Prod.fst → f'.operands i = f.operands i := by
  induction carried with
  | nil =>
    intro f f' hs _ _ h
    cases h
    exact ⟨hs, .refl f, fun _ => rfl, fun e he => absurd he List.not_mem_nil, fun _ _ => rfl⟩
  | cons e rest ih =>
    intro f f' hs hphis hnodup h
    obtain ⟨⟨⟩, f₁, hpush, hrest⟩ := bind_eq_ok h
    have hs₁ := sound_pushOperand hs (hphis e List.mem_cons_self) hpush
    obtain ⟨-, -, -, hbecomes, -⟩ := pushOperand_spec hpush
    rw [List.map_cons, List.nodup_cons] at hnodup
    have hinst₁ : ∀ i, f₁.inst i = { f.inst i with operands := f₁.operands i } ∧
        f₁.operands i = if i = e.1 then f.operands i ++ [e.2] else f.operands i := by
      intro i
      unfold Function.operands
      rw [hbecomes.inst, Function.update_apply]
      split
      · rename_i hi
        rw [hi]
        exact ⟨rfl, rfl⟩
      · exact ⟨rfl, rfl⟩
    obtain ⟨hs', hbecomes', hinst', hcarried, hothers⟩ := ih hs₁ (fun d hd => by
      have hkind : f₁.kind d.1 = f.kind d.1 := by
        unfold Function.kind
        rw [(hinst₁ d.1).1]
      rw [hkind]
      exact hphis d (List.mem_cons_of_mem _ hd)) hnodup.2 hrest
    refine ⟨hs', hbecomes.next hbecomes' (fun i => rfl) hbecomes.block,
      fun i => ?_, fun d hd => ?_, fun i hi => ?_⟩
    · rw [hinst', (hinst₁ i).1]
    · rcases List.mem_cons.1 hd with rfl | hd
      · rw [hothers d.1 hnodup.1, (hinst₁ d.1).2, if_pos rfl]
      · have hne : d.1 ≠ e.1 := by
          intro heq
          exact hnodup.1 (heq ▸ List.mem_map_of_mem hd)
        rw [hcarried d hd, (hinst₁ d.1).2, if_neg hne]
    · rw [List.map_cons, List.mem_cons, not_or] at hi
      rw [hothers i hi.2, (hinst₁ i).2, if_neg hi.1]

end Edit

end SsaCompiler
