import SsaCompiler.Proofs.Ir.Outlines

/-!
# Adding values, instructions and blocks

Building a function and promoting slots add values, instructions and blocks. The arenas only grow:
what was there keeps its number, and a new instruction gets its result and its operands in one step.
All of this keeps a function sound, as long as an instruction that is placed fits its operands and its
targets exist.
-/

set_option autoImplicit false

namespace SsaCompiler

/-- A value that has a register of its own. -/
def ValueKind.isComputed : ValueKind → Bool
  | .inst _ | .param _ => true
  | .const _ | .global _ | .str _ => false

variable {v : ValueId}

namespace Function

variable {f f' : Function}

/-- There is no record behind the last value. -/
theorem value_of_size_le (h : f.values.size ≤ v) : f.value v = default := by
  unfold value
  rw [Array.getD_eq_getD_getElem?, Array.getElem?_eq_none h]
  rfl

/-- The record behind the last value reads nothing. -/
theorem uses_of_size_le (h : f.values.size ≤ v) : f.uses v = [] := by
  unfold uses
  rw [value_of_size_le h]
  rfl

/-- The records after a value was added. -/
theorem value_push (d : ValueData) (v : ValueId) :
    Function.value { f with values := f.values.push d } v = if v = f.values.size then d else f.value v := by
  unfold Function.value
  rw [Array.getD_eq_getD_getElem?, Array.getElem?_push]
  by_cases hv : v = f.values.size
  · simp [hv]
  · simp [hv, Array.getD_eq_getD_getElem?]

/-- The records after a block was added. -/
theorem block_push (d : BlockData) (layout : List BlockId) (b : BlockId) :
    Function.block { f with blocks := f.blocks.push d, layout := layout } b =
      Function.update f.block f.blocks.size d b := by
  unfold Function.block
  rw [Array.getD_eq_getD_getElem?, Array.getElem?_push, Function.update_apply]
  by_cases hb : b = f.blocks.size
  · simp [hb]
  · simp [hb, Array.getD_eq_getD_getElem?]

/-- A function without blocks is sound. -/
theorem sound_new (name : String) (paramCount : Nat) (returnsValue : Bool) :
    (Function.new name paramCount returnsValue).Sound := by
  have hkind : ∀ r i, r < (Function.new name paramCount returnsValue).values.size →
      ((Function.new name paramCount returnsValue).value r).kind ≠ .inst i := by
    intro r i hr
    have hlt : r < paramCount := by simpa [Function.new] using hr
    unfold Function.value Function.new
    rw [Array.getD_eq_getD_getElem?, Array.getElem?_eq_getElem (by simpa using hlt), Array.getElem_ofFn]
    simp
  have huses : ∀ v, (Function.new name paramCount returnsValue).uses v = [] := by
    intro v
    unfold Function.uses Function.value Function.new
    rw [Array.getD_eq_getD_getElem?, Array.getElem?_ofFn]
    split <;> rfl
  refine ⟨fun v u => ?_, fun _ => List.nodup_nil, fun _ i => ?_, fun i r hr => ?_, fun i r hr hk => ?_, fun i r hr => ?_,
    fun _ i hi => ?_, fun _ i hi => ?_, List.nodup_nil, fun b => ?_⟩
  · rw [huses]
    rfl
  · exact ⟨fun h => absurd h List.not_mem_nil, fun h => by cases h⟩
  · cases hr
  · exact absurd hk (hkind r i hr)
  · cases hr
  · exact absurd hi List.not_mem_nil
  · exact absurd hi List.not_mem_nil
  · exact ⟨fun h => absurd h List.not_mem_nil, fun h => absurd h.1 (Nat.not_lt_zero b)⟩

/-- A function has the same instructions, blocks and uses as another one, and maybe more values. -/
structure MoreValues (f f' : Function) : Prop where
  heading : f'.heading = f.heading
  inst : ∀ i, f'.inst i = f.inst i
  insts_size : f'.insts.size = f.insts.size
  block : ∀ b, f'.block b = f.block b
  layout : f'.layout = f.layout
  blocks_size : f'.blocks.size = f.blocks.size
  values_size : f.values.size ≤ f'.values.size
  kinds : ∀ v, v < f.values.size → (f'.value v).kind = (f.value v).kind
  /-- No new value is the result of an instruction or a parameter. -/
  fresh : ∀ v, f.values.size ≤ v → v < f'.values.size → (f'.value v).kind.isComputed = false
  uses : ∀ v, f'.uses v = f.uses v
  live : ∀ v, (f'.value v).live = (f.value v).live

namespace MoreValues

theorem refl (f : Function) : f.MoreValues f :=
  ⟨rfl, fun _ => rfl, rfl, fun _ => rfl, rfl, rfl, Nat.le_refl _, fun _ _ => rfl,
    fun _ hge hlt => absurd hlt (Nat.not_lt.2 hge), fun _ => rfl, fun _ => rfl⟩

theorem trans {f'' : Function} (h : f.MoreValues f') (h' : f'.MoreValues f'') : f.MoreValues f'' where
  heading := h'.heading.trans h.heading
  inst i := (h'.inst i).trans (h.inst i)
  insts_size := h'.insts_size.trans h.insts_size
  block b := (h'.block b).trans (h.block b)
  layout := h'.layout.trans h.layout
  blocks_size := h'.blocks_size.trans h.blocks_size
  values_size := Nat.le_trans h.values_size h'.values_size
  kinds v hv := (h'.kinds v (Nat.lt_of_lt_of_le hv h.values_size)).trans (h.kinds v hv)
  fresh v hge hlt := by
    by_cases hv : v < f'.values.size
    · rw [h'.kinds v hv]
      exact h.fresh v hge hv
    · exact h'.fresh v (Nat.le_of_not_lt hv) hlt
  uses v := (h'.uses v).trans (h.uses v)
  live v := (h'.live v).trans (h.live v)

/-- Values that have no registers of their own are all that is brought in. -/
theorem outlines {V : ValueKind → Prop} {K : InstKind → Prop} (hV : ∀ kind : ValueKind, kind.isComputed = false → V kind)
    (h : f.MoreValues f') : f.Outlines V K f' := by
  refine ⟨h.heading, h.values_size, h.kinds, fun v => ?_, fun i => .inl (congrArg InstData.kind (h.inst i))⟩
  by_cases hv : v < f.values.size
  · exact .inl (h.kinds v hv)
  · by_cases hv' : v < f'.values.size
    · exact .inr (hV _ (h.fresh v (Nat.le_of_not_lt hv) hv'))
    · rw [value_of_size_le (Nat.le_of_not_lt hv), value_of_size_le (Nat.le_of_not_lt hv')]
      exact .inl rfl

theorem sound (h : f.MoreValues f') (hs : f.Sound) : f'.Sound where
  indexed v u := by
    rw [h.uses]
    unfold reads operands
    rw [h.inst]
    exact hs.indexed v u
  nodup b := by
    unfold instsOf
    rw [h.block]
    exact hs.nodup b
  placed b i := by
    unfold instsOf blockOf?
    rw [h.block, h.inst]
    exact hs.placed b i
  kind_of_result i r hr := by
    unfold result? at hr
    rw [h.inst] at hr
    obtain ⟨hlt, hkind⟩ := hs.kind_of_result i r hr
    exact ⟨Nat.lt_of_lt_of_le hlt h.values_size, by rw [h.kinds r hlt, hkind]⟩
  result_of_kind i r hr hk := by
    have hlt : r < f.values.size := by
      by_contra hge
      have hfresh := h.fresh r (Nat.le_of_not_lt hge) hr
      rw [hk] at hfresh
      cases hfresh
    rw [h.kinds r hlt] at hk
    unfold result?
    rw [h.inst]
    exact hs.result_of_kind i r hlt hk
  gives i r hr := by
    unfold result? at hr
    unfold kind
    rw [h.inst] at hr ⊢
    exact hs.gives i r hr
  fits b i hi := by
    unfold instsOf at hi
    rw [h.block] at hi
    unfold kind operands
    rw [h.inst]
    exact hs.fits b i hi
  bounded b i hi t ht := by
    unfold instsOf at hi
    rw [h.block] at hi
    unfold kind at ht
    rw [h.inst] at ht
    rw [h.blocks_size]
    exact hs.bounded b i hi t ht
  layout_nodup := by
    rw [h.layout]
    exact hs.layout_nodup
  mem_layout b := by
    rw [h.layout, h.blocks_size, h.block]
    exact hs.mem_layout b

end MoreValues

end Function

namespace Edit

open Edits

variable {f f' : Function}

/-! ## Values -/

/-- Adding a value. -/
theorem newValue_eq_ok {kind : ValueKind} (h : (newValue kind).run f = (.ok v, f')) :
    v = f.values.size ∧ f' = { f with values := f.values.push { kind } } := by
  cases h
  exact ⟨rfl, rfl⟩

/-- A value that stands for a constant or an address. -/
theorem internValue_spec {kind : ValueKind} (hkind : kind.isComputed = false)
    (h : (internValue kind).run f = (.ok v, f')) : f.MoreValues f' ∧ v < f'.values.size ∧ (f'.value v).kind = kind := by
  unfold internValue at h
  have h₁ := of_get_bind h
  split at h₁
  · rename_i w hw
    cases h₁
    obtain ⟨hlt, hat, -⟩ := Array.findIdx?_eq_some_iff_getElem.1 hw
    refine ⟨.refl f, hlt, ?_⟩
    unfold Function.value
    rw [Array.getD_eq_getD_getElem?, Array.getElem?_eq_getElem hlt]
    exact eq_of_beq hat
  · obtain ⟨rfl, rfl⟩ := newValue_eq_ok h₁
    have hsize : (f.values.push { kind : ValueData }).size = f.values.size + 1 := Array.size_push ..
    refine ⟨⟨rfl, fun _ => rfl, rfl, fun _ => rfl, rfl, rfl, ?_, fun w hw => ?_, fun w hge hlt => ?_,
      fun w => ?_, fun w => ?_⟩, ?_, ?_⟩
    · change _ ≤ (f.values.push _).size
      rw [hsize]
      exact Nat.le_succ _
    · rw [Function.value_push, if_neg (Nat.ne_of_lt hw)]
    · change _ < (f.values.push _).size at hlt
      rw [hsize] at hlt
      obtain rfl : w = f.values.size := Nat.le_antisymm (Nat.lt_succ_iff.1 hlt) hge
      rw [Function.value_push, if_pos rfl]
      exact hkind
    · unfold Function.uses
      rw [Function.value_push]
      split
      · rename_i hw
        rw [hw]
        exact (Function.uses_of_size_le (Nat.le_refl _)).symm
      · rfl
    · rw [Function.value_push]
      split
      · rename_i hw
        rw [hw, Function.value_of_size_le (Nat.le_refl _)]
        rfl
      · rfl
    · change _ < (f.values.push _).size
      rw [hsize]
      exact Nat.lt_succ_self _
    · rw [Function.value_push, if_pos rfl]

variable {b : BlockId} {i : InstId} {kind : InstKind} {operands : List ValueId} {name : String}

/-- Naming a value changes nothing else. -/
theorem setValueName_spec (h : (setValueName v name).run f = (.ok (), f')) : f.MoreValues f' := by
  obtain ⟨-, hsame, hsize, huses⟩ := modifyUses_spec id h fun d => ⟨rfl, rfl⟩
  obtain ⟨hv, rfl⟩ := modifyValue_eq_ok h
  refine ⟨rfl, hsame.inst, hsize, hsame.block, hsame.layout, hsame.blocks_size, Nat.le_of_eq hsame.values_size.symm,
    fun w _ => hsame.kinds w, fun w hge hlt => ?_, fun w => ?_, fun w => ?_⟩
  · rw [hsame.values_size] at hlt
    exact absurd hlt (Nat.not_lt.2 hge)
  · rw [huses]
    split
    · rename_i hw
      rw [hw]
      rfl
    · rfl
  · rw [Function.value_modify hv]
    split
    · rename_i hw
      rw [hw]
    · rfl

/-- Noting a callee changes nothing else. -/
theorem addCallee_spec {callee : FuncId} (h : (addCallee callee).run f = (.ok (), f')) : f.MoreValues f' := by
  cases h
  exact ⟨rfl, fun _ => rfl, rfl, fun _ => rfl, rfl, rfl, Nat.le_refl _, fun _ _ => rfl,
    fun _ hge hlt => absurd hlt (Nat.not_lt.2 hge), fun _ => rfl, fun _ => rfl⟩

/-! ## Instructions -/

/-- A function with one more instruction that stands in no block; its result, if it has one, is the last
value. -/
structure Created (f f' : Function) (kind : InstKind) (operands : List ValueId) (hasResult : Bool) :
    Prop where
  inst : ∀ i, f'.inst i = Function.update f.inst f.insts.size
    { kind, operands, result := if hasResult then some f.values.size else none } i
  insts_size : f'.insts.size = f.insts.size + 1
  block : ∀ b, f'.block b = f.block b
  layout : f'.layout = f.layout
  blocks_size : f'.blocks.size = f.blocks.size
  values_size : f'.values.size = f.values.size + if hasResult then 1 else 0
  kinds : ∀ v, v < f'.values.size →
    (f'.value v).kind = if v = f.values.size then .inst f.insts.size else (f.value v).kind
  operands_lt : ∀ v ∈ operands, v < f'.values.size
  indexed : f.IndexedBy f.reads → f'.IndexedBy f'.reads

/-- All values that get a use exist. -/
theorem lt_size_of_addUses {l : List ValueId} :
    ∀ {slot : Nat} {f f' : Function}, (addUses i slot l).run f = (.ok (), f') → ∀ v ∈ l, v < f.values.size := by
  induction l with
  | nil => exact fun _ v hv => absurd hv List.not_mem_nil
  | cons w rest ih =>
    intro slot f f' h v hv
    obtain ⟨⟨⟩, f₁, hfirst, hrest⟩ := bind_eq_ok h
    obtain ⟨hw, hsame, -, -⟩ := addUse_spec hfirst
    rcases List.mem_cons.1 hv with rfl | hv
    · exact hw
    · exact hsame.values_size ▸ ih hrest v hv

variable {hasResult : Bool} {slot : Nat}

/-- Adding an instruction. -/
theorem created_createInst (h : (createInst kind operands hasResult).run f = (.ok i, f')) :
    i = f.insts.size ∧ Created f f' kind operands hasResult := by
  unfold createInst at h
  have h₀ := of_get_bind h
  cases hasResult with
  | false =>
    obtain ⟨result, f₁, hresult, h₁⟩ := bind_eq_ok h₀
    cases hresult
    obtain ⟨⟨⟩, f₂, huses, h₂⟩ := bind_eq_ok h₁
    obtain ⟨⟨⟩, f₃, hpush, h₃⟩ := bind_eq_ok h₂
    cases hpush
    cases h₃
    obtain ⟨hsame, hsize, -⟩ := addUses_spec huses
    refine ⟨rfl, fun j => ?_, by simp [hsize], hsame.block, hsame.layout, hsame.blocks_size, hsame.values_size,
      fun v hv => ?_, fun v hv => ?_, indexed_push f (fun _ => rfl) rfl (fun _ => rfl) huses⟩
    · rw [inst_push, hsize, Function.update_apply, Function.update_apply, hsame.inst]
      rfl
    · change v < f₂.values.size at hv
      rw [hsame.values_size] at hv
      rw [if_neg (Nat.ne_of_lt hv)]
      exact hsame.kinds v
    · change v < f₂.values.size
      rw [hsame.values_size]
      exact lt_size_of_addUses huses v hv
  | true =>
    obtain ⟨result, f₁, hresult, h₁⟩ := bind_eq_ok h₀
    obtain ⟨⟨⟩, f₂, huses, h₂⟩ := bind_eq_ok h₁
    obtain ⟨⟨⟩, f₃, hpush, h₃⟩ := bind_eq_ok h₂
    cases hpush
    cases h₃
    cases hresult
    obtain ⟨hsame, hsize, -⟩ := addUses_spec huses
    refine ⟨rfl, fun j => ?_, by simp [hsize], hsame.block, hsame.layout, hsame.blocks_size, ?_,
      fun v hv => ?_, fun v hv => ?_, indexed_push { f with values := f.values.push _ }
        (fun _ => rfl) rfl (fun v => ?_) huses⟩
    · rw [inst_push, hsize, Function.update_apply, Function.update_apply, hsame.inst]
      rfl
    · exact hsame.values_size.trans (Array.size_push ..)
    · refine (hsame.kinds v).trans ?_
      rw [Function.value_push]
      split <;> rfl
    · change v < f₂.values.size
      rw [hsame.values_size]
      exact lt_size_of_addUses huses v hv
    · unfold Function.uses
      rw [Function.value_push]
      split
      · rename_i hv
        rw [hv]
        exact (Function.uses_of_size_le (Nat.le_refl _)).symm
      · rfl

/-- A function with an instruction that is not placed yet is sound. -/
theorem Created.sound (h : Created f f' kind operands hasResult) (hs : f.Sound)
    (hgives : hasResult = true → kind.givesValue = true) : f'.Sound := by
  -- The number of the new instruction was free.
  have hfree : f.inst f.insts.size = default := inst_of_size_le (Nat.le_refl _)
  have hnot : ∀ b, f.insts.size ∉ f.instsOf b := by
    intro b hin
    have hblock := (hs.placed b _).1 hin
    unfold Function.blockOf? at hblock
    rw [hfree] at hblock
    cases hblock
  have hinsts : ∀ b, f'.instsOf b = f.instsOf b := fun b => congrArg BlockData.insts (h.block b)
  have hold : ∀ i, i ≠ f.insts.size → f'.inst i = f.inst i := fun i hi => by
    rw [h.inst, Function.update_of_ne hi]
  refine ⟨h.indexed hs.indexed, fun b => hinsts b ▸ hs.nodup b, fun b i => ?_, fun i r hr => ?_,
    fun i r hr hk => ?_, fun i r hr => ?_, fun b i hi => ?_, fun b i hi t ht => ?_, h.layout ▸ hs.layout_nodup,
    fun b => ?_⟩
  · rw [hinsts]
    by_cases hi : i = f.insts.size
    · subst hi
      refine ⟨fun hin => absurd hin (hnot b), fun hblock => ?_⟩
      unfold Function.blockOf? at hblock
      rw [h.inst, Function.update_self] at hblock
      cases hblock
    · unfold Function.blockOf?
      rw [hold i hi]
      exact hs.placed b i
  · unfold Function.result? at hr
    by_cases hi : i = f.insts.size
    · subst hi
      rw [h.inst, Function.update_self] at hr
      cases hasResult with
      | false => cases hr
      | true =>
        cases hr
        have hlt : f.values.size < f'.values.size := by
          rw [h.values_size]
          exact Nat.lt_succ_self _
        exact ⟨hlt, by rw [h.kinds _ hlt, if_pos rfl]⟩
    · rw [hold i hi] at hr
      obtain ⟨hlt, hkind⟩ := hs.kind_of_result i r hr
      have hlt' : r < f'.values.size := by
        rw [h.values_size]
        exact Nat.lt_add_right _ hlt
      exact ⟨hlt', by rw [h.kinds r hlt', if_neg (Nat.ne_of_lt hlt), hkind]⟩
  · rw [h.kinds r hr] at hk
    unfold Function.result?
    split at hk
    · rename_i hrs
      cases hk
      rw [h.inst, Function.update_self, hrs]
      cases hasResult with
      | false =>
        rw [h.values_size, hrs] at hr
        exact absurd hr (Nat.lt_irrefl _)
      | true => rfl
    · rename_i hrs
      have hlt : r < f.values.size := by
        rw [h.values_size] at hr
        split at hr
        · exact Nat.lt_of_le_of_ne (Nat.lt_succ_iff.1 hr) hrs
        · exact hr
      have hresult := hs.result_of_kind i r hlt hk
      rw [hold i]
      · exact hresult
      · rintro rfl
        unfold Function.result? at hresult
        rw [hfree] at hresult
        cases hresult
  · unfold Function.result? at hr
    unfold Function.kind
    by_cases hi : i = f.insts.size
    · subst hi
      rw [h.inst, Function.update_self] at hr ⊢
      cases hasResult with
      | false => cases hr
      | true => exact hgives rfl
    · rw [hold i hi] at hr ⊢
      exact hs.gives i r hr
  · rw [hinsts] at hi
    have hne : i ≠ f.insts.size := fun heq => hnot b (heq ▸ hi)
    unfold Function.kind Function.operands
    rw [hold i hne]
    exact hs.fits b i hi
  · rw [hinsts] at hi
    have hne : i ≠ f.insts.size := fun heq => hnot b (heq ▸ hi)
    unfold Function.kind at ht
    rw [hold i hne] at ht
    rw [h.blocks_size]
    exact hs.bounded b i hi t ht
  · rw [h.layout, h.blocks_size, h.block]
    exact hs.mem_layout b

/-- Placing an instruction that fits its operands and whose targets exist keeps a function sound. -/
theorem sound_place {pos : Nat} (hs : f.Sound) (hpos : pos ≤ (f.instsOf b).length)
    (hfits : (f.kind i).fits (f.operands i).length = true) (htargets : ∀ t ∈ (f.kind i).targets, t < f.blocks.size)
    (h : (place b pos i).run f = (.ok (), f')) : f'.Sound := by
  obtain ⟨hfree, -, -, -, hbecomes, huses⟩ := place_spec h
  have hnot : ∀ c, i ∉ f.instsOf c := by
    intro c hin
    rw [(hs.placed c i).1 hin] at hfree
    cases hfree
  have hperm : ((f.instsOf b).insertIdx pos i).Perm (i :: f.instsOf b) := List.perm_insertIdx _ _ hpos
  have hinst : ∀ j, Function.update f.inst i { f.inst i with block := some b } j =
      { f.inst j with block := if j = i then some b else f.blockOf? j } := by
    intro j
    by_cases hj : j = i
    · rw [hj, Function.update_self, if_pos rfl]
    · rw [Function.update_of_ne hj, if_neg hj]
      rfl
  have hblock : ∀ c, (Function.update f.block b
      { f.block b with insts := (f.instsOf b).insertIdx pos i } c).insts.Perm
        (if c = b then i :: f.instsOf c else f.instsOf c) := by
    intro c
    by_cases hc : c = b
    · rw [hc, Function.update_self, if_pos rfl]
      exact hperm
    · rw [Function.update_of_ne hc, if_neg hc]
      exact .refl _
  refine hs.becomes hbecomes (fun v u => ?_) (fun j => ?_) (fun j r hr => ?_) (fun c j hj => ?_)
    (fun c => ?_) (fun c j => ?_) hs.layout_nodup (fun c => ?_)
  · rw [huses, reads_eq hbecomes, hinst]
    exact hs.indexed v u
  · rw [hinst]
    rfl
  · rw [hinst]
    exact hs.gives j r hr
  · rw [hinst]
    have hj' := (hblock c).mem_iff.1 hj
    by_cases hji : j = i
    · subst hji
      exact ⟨hfits, htargets⟩
    · have hin : j ∈ f.instsOf c := by
        split at hj'
        · exact (List.mem_cons.1 hj').resolve_left hji
        · exact hj'
      exact ⟨hs.fits c j hin, hs.bounded c j hin⟩
  · rw [(hblock c).nodup_iff]
    split
    · exact List.nodup_cons.2 ⟨hnot c, hs.nodup c⟩
    · exact hs.nodup c
  · rw [(hblock c).mem_iff, hinst]
    by_cases hji : j = i
    · subst hji
      by_cases hc : c = b
      · simp [hc]
      · rw [if_neg hc]
        exact ⟨fun hin => absurd hin (hnot c), fun heq => absurd (Option.some.inj (by simpa using heq)).symm hc⟩
    · have hold := hs.placed c j
      by_cases hc : c = b
      · rw [if_pos hc, List.mem_cons, if_neg hji]
        exact ⟨fun hin => hold.1 (hin.resolve_left hji), fun heq => .inr (hold.2 heq)⟩
      · rw [if_neg hc, if_neg hji]
        exact hold
  · rw [hs.mem_layout c]
    by_cases hc : c = b
    · rw [hc, Function.update_self]
    · rw [Function.update_of_ne hc]

/-- Appending an instruction is placing it at the end of a block that has no terminator yet. -/
theorem place_of_pushBack (h : (pushBack b i).run f = (.ok (), f')) :
    isTerminated f b = false ∧ ((f.kind i).isPhi = true → (f.phis b).length = (f.instsOf b).length) ∧
      (place b (f.instsOf b).length i).run f = (.ok (), f') := by
  unfold pushBack at h
  have h₀ := of_get_bind h
  obtain ⟨hopen, h₁⟩ := demand_bind_eq_ok h₀
  refine ⟨by simpa using hopen, ?_⟩
  dsimp only at h₁
  split at h₁
  · obtain ⟨⟨⟩, f₂, hcrash, -⟩ := bind_eq_ok h₁
    cases hcrash
  · rename_i hphi
    refine ⟨fun hi => ?_, h₁⟩
    rw [hi, Bool.true_and, bne_iff_ne, ne_eq, not_not] at hphi
    exact hphi

/-- Inserting a phi is placing it behind the phis of the block. -/
theorem place_of_insertPhi (h : (insertPhi b i).run f = (.ok (), f')) :
    (f.kind i).isPhi = true ∧ (place b (f.phis b).length i).run f = (.ok (), f') := by
  unfold insertPhi at h
  have h₀ := of_get_bind h
  split at h₀
  · rename_i hphi
    exact ⟨hphi, h₀⟩
  · cases h₀

/-- Appending an instruction keeps a function sound. -/
theorem sound_pushBack (hs : f.Sound) (hfits : (f.kind i).fits (f.operands i).length = true)
    (htargets : ∀ t ∈ (f.kind i).targets, t < f.blocks.size) (h : (pushBack b i).run f = (.ok (), f')) : f'.Sound :=
  sound_place hs (Nat.le_refl _) hfits htargets (place_of_pushBack h).2.2

theorem sound_insertPhi (hs : f.Sound) (h : (insertPhi b i).run f = (.ok (), f')) : f'.Sound := by
  obtain ⟨hphi, hplace⟩ := place_of_insertPhi h
  refine sound_place hs (List.takeWhile_sublist _).length_le ?_ (fun t ht => ?_) hplace
  · rw [InstKind.isPhi_eq_true.1 hphi]
    rfl
  · rw [InstKind.isPhi_eq_true.1 hphi] at ht
    cases ht

/-- Making a slot read another value. -/
theorem setOperand_spec (h : (setOperand i slot v).run f = (.ok (), f')) :
    ∃ old, (f.operands i)[slot]? = some old ∧ f'.insts.size = f.insts.size ∧
      f.Becomes f' (Function.update f.inst i { f.inst i with operands := (f.operands i).set slot v }) f.block
        f.layout ∧ (f.IndexedBy f.reads → f'.IndexedBy f'.reads) := by
  unfold setOperand at h
  obtain ⟨old, hold, h₁⟩ := ask_bind_eq_ok h
  have hslot := operand_eq_ok hold
  refine ⟨old, hslot, ?_⟩
  split at h₁
  · rename_i hne
    obtain ⟨⟨⟩, f₂, hremove, h₂⟩ := bind_eq_ok h₁
    obtain ⟨⟨⟩, f₃, hadd, h₃⟩ := bind_eq_ok h₂
    obtain ⟨hsame, hsize, hstrike⟩ := removeUse_spec hremove
    obtain ⟨-, hsame', hsize', henter⟩ := addUse_spec hadd
    obtain ⟨-, hsize'', hbecomes, huses⟩ := modifyInst_spec h₃
    have hboth := hsame.trans_same hsame'
    have hall : f.Becomes f' (Function.update f.inst i { f.inst i with
        operands := (f.operands i).set slot v }) f.block f.layout := by
      refine hboth.trans ⟨fun j => ?_, fun b => (hbecomes.block b).trans (hboth.block b),
        hbecomes.layout.trans hboth.layout, hbecomes.blocks_size, hbecomes.values_size, hbecomes.kinds⟩
      rw [hbecomes.inst, Function.update_apply, Function.update_apply, hboth.inst, hboth.inst]
      rfl
    refine ⟨hsize''.trans (hsize'.trans hsize), hall, fun hindexed => ?_⟩
    have hmiddle := henter _ (hstrike f.reads hindexed).2 (Function.update_self ..)
    have hlast : f'.IndexedBy _ := fun w u => by rw [huses]; exact hmiddle w u
    refine hlast.congr fun u => ?_
    rw [reads_eq hall]
    obtain ⟨user, s⟩ := u
    dsimp only
    by_cases huser : user = i
    · subst huser
      rw [Function.update_self]
      dsimp only
      rw [List.getElem?_set]
      by_cases hs : slot = s
      · subst hs
        rw [if_pos rfl, if_pos (List.getElem?_eq_some_iff.1 hslot).1, Function.update_self]
      · rw [if_neg hs, Function.update_of_ne (by simp [Ne.symm hs]), Function.update_of_ne (by simp [Ne.symm hs])]
        rfl
    · rw [Function.update_of_ne huser, Function.update_of_ne (by simp [huser]),
        Function.update_of_ne (by simp [huser])]
      rfl
  · rename_i heq
    cases h₁
    obtain rfl : old = v := not_not.1 heq
    have hset : (f.operands i).set slot old = f.operands i := by
      obtain ⟨hlt, hat⟩ := List.getElem?_eq_some_iff.1 hslot
      rw [← hat]
      exact List.set_getElem_self hlt
    refine ⟨rfl, ⟨fun j => ?_, fun _ => rfl, rfl, rfl, rfl, fun _ => rfl⟩, fun hindexed => hindexed⟩
    rw [hset]
    by_cases hj : j = i
    · rw [hj, Function.update_self]
      rfl
    · rw [Function.update_of_ne hj]

/-- Making a slot of a phi read another value keeps a function sound. -/
theorem sound_setOperand (hs : f.Sound) (h : (setOperand i slot v).run f = (.ok (), f')) : f'.Sound := by
  obtain ⟨old, -, -, hbecomes, hindex⟩ := setOperand_spec h
  have hinst : ∀ j, Function.update f.inst i { f.inst i with operands := (f.operands i).set slot v } j =
      { f.inst j with operands := if j = i then (f.operands i).set slot v else f.operands j } := by
    intro j
    by_cases hj : j = i
    · rw [hj, Function.update_self, if_pos rfl]
    · rw [Function.update_of_ne hj, if_neg hj]
      rfl
  refine hs.becomes_insts hbecomes (hindex hs.indexed) (fun j => by rw [hinst]; rfl)
    (fun j r hr => by rw [hinst]; exact hs.gives j r hr) (fun b j hj => ?_) (fun j => by rw [hinst]; rfl)
  rw [hinst]
  refine ⟨?_, hs.bounded b j hj⟩
  change (f.kind j).fits (if j = i then (f.operands i).set slot v else f.operands j).length = true
  split
  · rename_i hji
    rw [List.length_set, ← hji]
    exact hs.fits b j hj
  · exact hs.fits b j hj

/-! ## Blocks -/

/-- Adding a block. -/
theorem createBlock_spec (h : (createBlock name).run f = (.ok b, f')) :
    b = f.blocks.size ∧ f' = { f with blocks := f.blocks.push { name }, layout := f.layout ++ [b] } := by
  cases h
  exact ⟨rfl, rfl⟩

/-- An added block is empty, and it is laid out. -/
theorem createBlock_layout (h : (createBlock name).run f = (.ok b, f')) (hnodup : f.layout.Nodup)
    (hmem : ∀ c, c ∈ f.layout ↔ c < f.blocks.size ∧ (f.block c).removed = false) :
    f'.blocks.size = f.blocks.size + 1 ∧ (∀ c, f'.instsOf c = f.instsOf c) ∧ f'.layout.Nodup ∧
      ∀ c, c ∈ f'.layout ↔ c < f'.blocks.size ∧ (f'.block c).removed = false := by
  obtain ⟨rfl, rfl⟩ := createBlock_spec h
  have hsize : (f.blocks.push { name : BlockData }).size = f.blocks.size + 1 := Array.size_push ..
  have hnew : f.block f.blocks.size = default := by
    unfold Function.block
    rw [Array.getD_eq_getD_getElem?, Array.getElem?_eq_none (Nat.le_refl _)]
    rfl
  refine ⟨hsize, fun c => ?_, List.nodup_append.2 ⟨hnodup, List.nodup_singleton _, fun c hc d hd heq => ?_⟩, fun c => ?_⟩
  · unfold Function.instsOf
    rw [Function.block_push]
    exact Function.proj_update (by rw [hnew]; rfl) c
  · rw [heq, List.mem_singleton.1 hd, hmem] at hc
    exact Nat.lt_irrefl _ hc.1
  · rw [Function.block_push]
    change c ∈ f.layout ++ [f.blocks.size] ↔ c < (f.blocks.push _).size ∧ _
    rw [hsize, List.mem_append, List.mem_singleton, hmem]
    by_cases hc : c = f.blocks.size
    · simp [hc]
    · rw [Function.update_of_ne hc]
      have hlt : c < f.blocks.size + 1 ↔ c < f.blocks.size :=
        ⟨fun h => Nat.lt_of_le_of_ne (Nat.lt_succ_iff.1 h) hc, Nat.lt_succ_of_lt⟩
      rw [hlt]
      exact ⟨fun h => h.resolve_right hc, .inl⟩

theorem sound_createBlock (hs : f.Sound) (h : (createBlock name).run f = (.ok b, f')) : f'.Sound := by
  obtain ⟨hsize, hinsts, hnodup, hmem⟩ := createBlock_layout h hs.layout_nodup hs.mem_layout
  obtain ⟨rfl, rfl⟩ := createBlock_spec h
  refine ⟨hs.indexed, fun b => by rw [hinsts]; exact hs.nodup b, fun b i => by rw [hinsts]; exact hs.placed b i,
    hs.kind_of_result, hs.result_of_kind, hs.gives, fun b i hi => ?_, fun b i hi t ht => ?_, hnodup, hmem⟩
  · rw [hinsts] at hi
    exact hs.fits b i hi
  · rw [hinsts] at hi
    rw [hsize]
    exact Nat.lt_succ_of_lt (hs.bounded b i hi t ht)

end Edit

end SsaCompiler
