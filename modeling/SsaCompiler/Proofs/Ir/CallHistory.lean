import SsaCompiler.Proofs.Ir.BlockStructure
import SsaCompiler.Proofs.Ir.SuccessfulEdits

/-!
# What a function keeps of its past

A run of the editing interface passes through many states of a function, and each state keeps something of all states
before it (`Function.Continues`): an instruction has the result that it was created with, a dead value stays dead, and
an instruction leaves the layout only when its result dies. The interface never takes an instruction out of its block
by itself. Removing it strikes it from its block and marks its result, and removing blocks does this with all their
instructions before the blocks leave the layout.

So in a state that verification accepts, where no slot of the layout reads a dead value, the instruction behind an
operand stands in the layout if it ever stood there (`operands_of_verify`). It need not have: verification asks of an
operand whether it is live, and the result of an instruction that was created and not placed yet is
(`operands_of_verify_neverPlaced`).
-/

set_option autoImplicit false

namespace SsaCompiler

variable {i : InstId}

namespace Function

variable {f₀ f f' : Function}

/-- Instructions and their results name each other. -/
structure Matched (f : Function) : Prop where
  kind_of_result : ∀ i r, f.result? i = some r → r < f.values.size ∧ (f.value r).kind = .inst i
  result_of_kind : ∀ i r, r < f.values.size → (f.value r).kind = .inst i → f.result? i = some r

/-- An instruction stands in a block of the layout. -/
def Stands (f : Function) (i : InstId) : Prop := ∃ b ∈ f.layout, f.blockOf? i = some b

/-- An instruction that stands somewhere exists. -/
theorem Stands.lt_size (h : f.Stands i) : i < f.insts.size := by
  obtain ⟨b, -, hblock⟩ := h
  exact lt_insts_size hblock

/-- What a function keeps of an earlier state. -/
structure Continues (f₀ f : Function) : Prop where
  matched : f.Matched
  insts_size : f₀.insts.size ≤ f.insts.size
  result : ∀ i, i < f₀.insts.size → f.result? i = f₀.result? i
  dead : ∀ v, (f₀.value v).live = false → (f.value v).live = false
  /-- An instruction that has left the layout has left a dead result behind. -/
  left : ∀ i, f₀.Stands i → f.Stands i ∨ ∀ r, f.result? i = some r → (f.value r).live = false

namespace Continues

theorem refl (h : f.Matched) : f.Continues f :=
  ⟨h, Nat.le_refl _, fun _ _ => rfl, fun _ hv => hv, fun _ hi => .inl hi⟩

theorem trans (h : f₀.Continues f) (h' : f.Continues f') : f₀.Continues f' := by
  refine ⟨h'.matched, Nat.le_trans h.insts_size h'.insts_size, fun i hi => ?_, fun v hv => h'.dead v (h.dead v hv),
    fun i hi => ?_⟩
  · rw [h'.result i (Nat.lt_of_lt_of_le hi h.insts_size)]
    exact h.result i hi
  · have hlt := hi.lt_size
    rcases h.left i hi with hstands | hdead
    · exact h'.left i hstands
    · refine .inr fun r hr => h'.dead r (hdead r ?_)
      rw [← h'.result i (Nat.lt_of_lt_of_le hlt h.insts_size)]
      exact hr

variable {block : BlockId → BlockData}

/-- A change that keeps results, marks and places. -/
theorem becomes {inst : InstId → InstData} (hm : f.Matched) (hb : f.Becomes f' inst block f.layout)
    (hsize : f'.insts.size = f.insts.size) (hlive : ∀ v, (f'.value v).live = (f.value v).live)
    (hinst : ∀ i, (inst i).result = f.result? i ∧ ∀ b, f.blockOf? i = some b → (inst i).block = some b) :
    f.Continues f' := by
  have hresult : ∀ i, f'.result? i = f.result? i := fun i => (congrArg InstData.result (hb.inst i)).trans (hinst i).1
  refine ⟨⟨fun i r hr => ?_, fun i r hr hkind => ?_⟩, Nat.le_of_eq hsize.symm, fun i _ => hresult i,
    fun v hv => (hlive v).trans hv, fun i hi => .inl ?_⟩
  · rw [hb.values_size, hb.kinds]
    exact hm.kind_of_result i r (hresult i ▸ hr)
  · rw [hb.values_size] at hr
    rw [hb.kinds] at hkind
    exact (hresult i).trans (hm.result_of_kind i r hr hkind)
  · obtain ⟨b, hmem, hblock⟩ := hi
    exact ⟨b, hb.layout ▸ hmem, (congrArg InstData.block (hb.inst i)).trans ((hinst i).2 b hblock)⟩

/-- A change of one instruction that keeps its result and its place. -/
theorem update {d : InstData} (hm : f.Matched) (hb : f.Becomes f' (Function.update f.inst i d) block f.layout)
    (hsize : f'.insts.size = f.insts.size) (hlive : ∀ v, (f'.value v).live = (f.value v).live)
    (hresult : d.result = f.result? i) (hplace : ∀ b, f.blockOf? i = some b → d.block = some b) : f.Continues f' := by
  refine becomes hm hb hsize hlive fun j => ?_
  rw [Function.update_apply]
  split
  · rename_i hj
    rw [hj]
    exact ⟨hresult, hplace⟩
  · exact ⟨rfl, fun _ hb => hb⟩

/-- More values. -/
theorem moreValues (hm : f.Matched) (h : f.MoreValues f') : f.Continues f' := by
  have hresult : ∀ i, f'.result? i = f.result? i := fun i => congrArg InstData.result (h.inst i)
  refine ⟨⟨fun i r hr => ?_, fun i r hr hkind => ?_⟩, Nat.le_of_eq h.insts_size.symm, fun i _ => hresult i,
    fun v hv => (h.live v).trans hv, fun i hi => .inl ?_⟩
  · obtain ⟨hlt, hkind⟩ := hm.kind_of_result i r (hresult i ▸ hr)
    exact ⟨Nat.lt_of_lt_of_le hlt h.values_size, (h.kinds r hlt).trans hkind⟩
  · have hlt : r < f.values.size := by
      by_contra hge
      have hfresh := h.fresh r (Nat.le_of_not_lt hge) hr
      rw [hkind] at hfresh
      cases hfresh
    exact (hresult i).trans (hm.result_of_kind i r hlt (h.kinds r hlt ▸ hkind))
  · obtain ⟨b, hmem, hblock⟩ := hi
    exact ⟨b, h.layout ▸ hmem, (congrArg InstData.block (h.inst i)).trans hblock⟩

end Continues

/-- No value of a new function is a result. -/
theorem matched_new (name : String) (paramCount : Nat) (returnsValue : Bool) :
    (Function.new name paramCount returnsValue).Matched :=
  ⟨(sound_new name paramCount returnsValue).kind_of_result, (sound_new name paramCount returnsValue).result_of_kind⟩

end Function

namespace Edit

open Edits

variable {f₀ f f' : Function} {α : Type}

/-! ## What each edit keeps -/

/-- An edit after which everything is kept that was kept before it. -/
abbrev Continuing (edit : Edit α) : Prop := ∀ f₀ : Function, Preserves (f₀.Continues ·) edit

/-- An edit that keeps what there is. -/
theorem continuing_of (edit : Edit α)
    (h : ∀ ⦃f f' a⦄, f.Matched → edit.run f = (.ok a, f') → f.Continues f') : Continuing edit :=
  fun _ _ _ _ hf hrun => hf.trans (h hf.matched hrun)

theorem continuing_internValue {kind : ValueKind} (hkind : kind.isComputed = false) : Continuing (internValue kind) :=
  continuing_of _ fun _ _ _ hm hrun => .moreValues hm (internValue_spec hkind hrun).1

theorem continuing_setValueName (v : ValueId) (name : String) : Continuing (setValueName v name) :=
  continuing_of _ fun _ _ _ hm hrun => .moreValues hm (setValueName_spec hrun)

theorem continuing_addCallee (callee : FuncId) : Continuing (addCallee callee) :=
  continuing_of _ fun _ _ _ hm hrun => .moreValues hm (addCallee_spec hrun)

/-- A new instruction has a number of its own, and so has its result. -/
theorem continuing_createInst (kind : InstKind) (operands : List ValueId) (hasResult : Bool) :
    Continuing (createInst kind operands hasResult) := by
  refine continuing_of _ fun f f' i hm hrun => ?_
  have hlive := (keepsMarks_createInst kind operands hasResult).live_eq hrun
  obtain ⟨rfl, hcreated⟩ := created_createInst hrun
  have hold : ∀ i, i ≠ f.insts.size → f'.inst i = f.inst i := fun i hi => by
    rw [hcreated.inst, Function.update_of_ne hi]
  have hnew : f'.result? f.insts.size = if hasResult then some f.values.size else none := by
    rw [Function.result?, hcreated.inst, Function.update_self]
  have hfree : f.inst f.insts.size = default := inst_of_size_le (Nat.le_refl _)
  have hresult : ∀ i r, f.result? i = some r → i ≠ f.insts.size := by
    rintro i r hr rfl
    rw [Function.result?, hfree] at hr
    cases hr
  refine ⟨⟨fun i r hr => ?_, fun i r hr hkind => ?_⟩, by rw [hcreated.insts_size]; exact Nat.le_succ _, fun i hi => ?_,
    fun v hv => (hlive v).trans hv, fun i hi => .inl ?_⟩
  · by_cases hi : i = f.insts.size
    · rw [hi, hnew] at hr
      split at hr
      · rename_i hhas
        cases hr
        have hlt : f.values.size < f'.values.size := by
          rw [hcreated.values_size, if_pos hhas]
          exact Nat.lt_succ_self _
        rw [hcreated.kinds _ hlt, if_pos rfl, hi]
        exact ⟨hlt, rfl⟩
      · cases hr
    · rw [Function.result?, hold i hi] at hr
      obtain ⟨hlt, hkind⟩ := hm.kind_of_result i r hr
      have hlt' : r < f'.values.size := by
        rw [hcreated.values_size]
        exact Nat.lt_of_lt_of_le hlt (Nat.le_add_right _ _)
      rw [hcreated.kinds r hlt', if_neg (Nat.ne_of_lt hlt)]
      exact ⟨hlt', hkind⟩
  · rw [hcreated.kinds r hr] at hkind
    split at hkind
    · rename_i hsize
      cases hkind
      rw [hcreated.values_size, hsize] at hr
      rw [hnew, hsize]
      split
      · rfl
      · rename_i hhas
        rw [if_neg hhas] at hr
        exact absurd hr (Nat.lt_irrefl _)
    · rename_i hne
      have hlt : r < f.values.size := by
        rw [hcreated.values_size] at hr
        split at hr <;> omega
      have hi := hm.result_of_kind i r hlt hkind
      rw [Function.result?, hold i (hresult i r hi)]
      exact hi
  · rw [Function.result?, hold i (Nat.ne_of_lt hi)]
    rfl
  · have hlt := hi.lt_size
    obtain ⟨b, hmem, hblock⟩ := hi
    refine ⟨b, hcreated.layout ▸ hmem, ?_⟩
    rw [Function.blockOf?, hold i (Nat.ne_of_lt hlt)]
    exact hblock

theorem continuing_setOperand (i : InstId) (slot : Nat) (v : ValueId) : Continuing (setOperand i slot v) := by
  refine continuing_of _ fun f f' _ hm hrun => ?_
  obtain ⟨-, -, hsize, hbecomes, -⟩ := setOperand_spec hrun
  exact .update hm hbecomes hsize ((keepsMarks_setOperand i slot v).live_eq hrun) rfl fun _ hb => hb

theorem continuing_pushOperand (i : InstId) (v : ValueId) : Continuing (pushOperand i v) := by
  refine continuing_of _ fun f f' _ hm hrun => ?_
  obtain ⟨-, -, hsize, hbecomes, -⟩ := pushOperand_spec hrun
  exact .update hm hbecomes hsize ((keepsMarks_pushOperand i v).live_eq hrun) rfl fun _ hb => hb

theorem continuing_removeOperand (i : InstId) (slot : Nat) : Continuing (removeOperand i slot) := by
  refine continuing_of _ fun f f' _ hm hrun => ?_
  obtain ⟨-, -, hsize, hbecomes, -⟩ := removeOperand_spec hrun
  exact .update hm hbecomes hsize ((keepsMarks_removeOperand i slot).live_eq hrun) rfl fun _ hb => hb

theorem continues_replaceAllUses {old new : ValueId} {count : Nat} (hm : f.Matched) (hindexed : Indexed f)
    (hrun : (replaceAllUses old new).run f = (.ok count, f')) : f.Continues f' := by
  by_cases hne : old = new
  · unfold replaceAllUses at hrun
    rw [if_pos hne] at hrun
    cases hrun
    exact .refl hm
  · obtain ⟨-, hsize, hbecomes, -⟩ := replaceAllUses_spec hne hindexed hrun
    exact .becomes hm hbecomes hsize ((keepsMarks_replaceAllUses old new).live_eq hrun) fun _ => ⟨rfl, fun _ hb => hb⟩

theorem continuing_detachOperands (i : InstId) : Continuing (detachOperands i) := by
  refine continuing_of _ fun f f' _ hm hrun => ?_
  obtain ⟨-, hsize, hbecomes, -⟩ := detachOperands_spec hrun
  exact .update hm hbecomes hsize ((keepsMarks_detachOperands i).live_eq hrun) rfl fun _ hb => hb

theorem continuing_createBlock (name : String) : Continuing (createBlock name) := by
  refine continuing_of _ fun f f' _ hm hrun => ?_
  obtain ⟨rfl, rfl⟩ := createBlock_spec hrun
  refine ⟨⟨hm.kind_of_result, hm.result_of_kind⟩, Nat.le_refl _, fun _ _ => rfl, fun _ hv => hv, fun i hi => .inl ?_⟩
  obtain ⟨b, hmem, hblock⟩ := hi
  exact ⟨b, List.mem_append_left _ hmem, hblock⟩

theorem continuing_modifyBlock (b : BlockId) (change : BlockData → BlockData) : Continuing (modifyBlock b change) := by
  refine continuing_of _ fun f f' _ hm hrun => ?_
  obtain ⟨-, hsize, hbecomes, -⟩ := modifyBlock_spec hrun
  exact .becomes hm hbecomes hsize ((keepsMarks_modifyBlock b change).live_eq hrun) fun _ => ⟨rfl, fun _ hb => hb⟩

/-- Only an instruction that stands in no block is placed. -/
theorem continuing_place (b : BlockId) (pos : Nat) (i : InstId) : Continuing (place b pos i) := by
  refine continuing_of _ fun f f' _ hm hrun => ?_
  obtain ⟨hfree, -, -, hsize, hbecomes, -⟩ := place_spec hrun
  refine .update hm hbecomes hsize ((keepsMarks_place b pos i).live_eq hrun) rfl fun c hc => ?_
  rw [hfree] at hc
  cases hc

theorem continuing_pushBack (b : BlockId) (i : InstId) : Continuing (pushBack b i) :=
  fun f₀ _ _ _ hf hrun => continuing_place _ _ _ f₀ hf (place_of_pushBack hrun).2.2

theorem continuing_insertPhi (b : BlockId) (i : InstId) : Continuing (insertPhi b i) :=
  fun f₀ _ _ _ hf hrun => continuing_place _ _ _ f₀ hf (place_of_insertPhi hrun).2

theorem continuing_demand (condition : Bool) (text : String) : Continuing (demand condition text) := by
  intro f₀ f f' _ hf hrun
  obtain ⟨-, rfl⟩ := demand_eq_ok hrun
  exact hf

theorem continuing_position (i : InstId) : Continuing (position i) := by
  intro f₀ f f' at_ hf hrun
  obtain ⟨rfl, -⟩ := position_eq_ok hrun
  exact hf

theorem continuing_insertBefore (anchor i : InstId) : Continuing (insertBefore anchor i) := by
  refine fun f₀ => .bind (continuing_position anchor f₀) fun at_ => .bind .get fun g => ?_
  refine .bind (continuing_demand _ _ f₀) fun _ => ?_
  split
  · exact .bind (continuing_demand _ _ f₀) fun _ => continuing_place _ _ _ f₀
  · exact .bind (continuing_demand _ _ f₀) fun _ => continuing_place _ _ _ f₀

theorem continuing_insertAfter (anchor i : InstId) : Continuing (insertAfter anchor i) := by
  refine fun f₀ => .bind (continuing_position anchor f₀) fun at_ => .bind .get fun g => ?_
  refine .bind (continuing_demand _ _ f₀) fun _ => .bind (continuing_demand _ _ f₀) fun _ => ?_
  split
  · exact .bind (continuing_demand _ _ f₀) fun _ => continuing_place _ _ _ f₀
  · exact .bind (continuing_demand _ _ f₀) fun _ => continuing_place _ _ _ f₀

/-- An instruction that is removed leaves a dead result. -/
theorem continuing_removeInst (i : InstId) : Continuing (removeInst i) := by
  refine continuing_of _ fun f f' _ hm hrun => ?_
  have hlive := live_removeInst hrun
  obtain ⟨-, -, hsize, hbecomes, -⟩ := removeInst_spec hrun
  have hresult : ∀ j, f'.result? j = f.result? j := by
    intro j
    rw [Function.result?, hbecomes.inst]
    exact Function.proj_update (by rfl) _
  refine ⟨⟨fun j r hr => ?_, fun j r hr hkind => ?_⟩, Nat.le_of_eq hsize.symm, fun j _ => hresult j, fun v hv => ?_,
    fun j hj => ?_⟩
  · rw [hbecomes.values_size, hbecomes.kinds]
    exact hm.kind_of_result j r (hresult j ▸ hr)
  · rw [hbecomes.values_size] at hr
    rw [hbecomes.kinds] at hkind
    exact (hresult j).trans (hm.result_of_kind j r hr hkind)
  · rw [hlive, hv]
    split <;> rfl
  · by_cases hji : j = i
    · refine .inr fun r hr => ?_
      rw [hlive, if_pos (hji ▸ (hresult j).symm.trans hr)]
    · obtain ⟨b, hmem, hblock⟩ := hj
      refine .inl ⟨b, hbecomes.layout ▸ hmem, ?_⟩
      rw [Function.blockOf?, hbecomes.inst, Function.update_of_ne hji]
      exact hblock

theorem continuing_redirectTarget (i : InstId) (source target : BlockId) :
    Continuing (redirectTarget i source target) := by
  refine continuing_of _ fun f f' _ hm hrun => ?_
  rcases redirectTarget_spec hrun with ⟨-, rfl⟩ | ⟨kind, -, -, -, hsize, hbecomes, -⟩
  · exact .refl hm
  · exact .update hm hbecomes hsize ((keepsMarks_redirectTarget i source target).live_eq hrun) rfl fun _ hb => hb

theorem continuing_removePredAt (b : BlockId) (idx : Nat) : Continuing (removePredAt b idx) := fun f₀ =>
  preserves_removePredAt (fun i slot => continuing_removeOperand i slot f₀)
    (fun c change _ => continuing_modifyBlock c change f₀) b idx

variable {r : Except Failure Unit}

/-- Before removed blocks leave the layout, their instructions have been removed. -/
theorem continues_removeBlocks {doomed : List BlockId} (hm : f.Matched) (hs : f.Structured) (hindexed : Indexed f)
    (h : (removeBlocks doomed).run f = (r, f')) (hr : ∀ text, r ≠ .error (.crash text)) : f.Continues f' := by
  have hdetach : Upholds (f.Continues ·) ((doomed.flatMap f.instsOf).forM detachOperands) :=
    .forM fun i _ => .of_quiet (continuing_detachOperands i f) (quiet_detachOperands i)
  have hremove : Upholds (f.Continues ·) ((doomed.flatMap f.instsOf).forM removeInst) :=
    .forM fun i _ => .of_reports_eq (continuing_removeInst i f) fun _ _ _ => removeInst_reports
  match r, hr with
  | .error (.error cause), _ =>
    unfold removeBlocks at h
    rcases bind_eq_error h with hget | ⟨g, f₁, hget, h₁⟩
    · cases hget
    cases hget
    rcases bind_eq_error h₁ with hreport | ⟨⟨⟩, f₂, hdone, h₂⟩
    · exact hdetach.reports (.refl hm) hreport
    have hdone' := hdetach.preserves (.refl hm) hdone
    rcases bind_eq_error h₂ with hreport | ⟨⟨⟩, f₃, -, h₃⟩
    · exact hremove.reports hdone' hreport
    · have hquiet : Quiet (do
          doomed.forM fun b => modifyBlock b fun d => { d with removed := true, preds := [] }
          modify fun f => { f with layout := f.layout.filter fun b => !doomed.contains b } : Edit Unit) :=
        .bind (.forM fun b _ => quiet_modifyBlock _ _) fun _ => .modify _
      exact absurd h₃ (hquiet ·)
  | .error (.crash text), hr => exact absurd rfl (hr text)
  | .ok (), _ =>
    obtain ⟨hbecomes, -⟩ := removeBlocks_becomes hindexed hs.listed.placed h
    unfold removeBlocks at h
    have h₁ := of_get_bind h
    obtain ⟨⟨⟩, f₂, hdone, h₂⟩ := bind_eq_ok h₁
    obtain ⟨⟨⟩, f₃, hgone, h₃⟩ := bind_eq_ok h₂
    obtain ⟨⟨⟩, f₄, hmark, h₄⟩ := bind_eq_ok h₃
    have hall : f.Continues f₄ := Preserves.forM (fun b _ => continuing_modifyBlock _ _ f)
      (hremove.preserves (hdetach.preserves (.refl hm) hdone) hgone) hmark
    cases h₄
    refine ⟨⟨hall.matched.kind_of_result, hall.matched.result_of_kind⟩, hall.insts_size, hall.result, hall.dead,
      fun i hi => ?_⟩
    refine (hall.left i hi).imp_left ?_
    rintro ⟨b, hmem, hblock⟩
    refine ⟨b, List.mem_filter.2 ⟨hmem, ?_⟩, hblock⟩
    -- The blocks that go are empty by now.
    have hinst := congrArg InstData.block (hbecomes.inst i)
    split at hinst
    · exact absurd (hblock.symm.trans hinst) (Option.some_ne_none b)
    · rename_i hkept
      have hlisted := (hs.listed.placed b i).2 (hinst.symm.trans hblock)
      rw [Bool.not_eq_true', List.contains_eq_mem, decide_eq_false_iff_not]
      exact fun hb => hkept (List.mem_flatMap.2 ⟨b, hb, hlisted⟩)

/-! ## What a run keeps -/

/-- What the edits keep. -/
theorem kept_continues (f₀ : Function) : KeptByEdits (f₀.Continues ·) where
  internValue h := continuing_internValue h f₀
  setValueName v name := continuing_setValueName v name f₀
  addCallee callee := continuing_addCallee callee f₀
  createInst kind operands hasResult := continuing_createInst kind operands hasResult f₀
  setOperand i slot v := continuing_setOperand i slot v f₀
  pushOperand i v := continuing_pushOperand i v f₀
  removeOperand i slot := continuing_removeOperand i slot f₀
  createBlock name := continuing_createBlock name f₀
  pushBack b i := continuing_pushBack b i f₀
  insertPhi b i := continuing_insertPhi b i f₀
  insertBefore anchor i := continuing_insertBefore anchor i f₀
  insertAfter anchor i := continuing_insertAfter anchor i f₀
  removeInst i := continuing_removeInst i f₀
  redirectTarget i source target := continuing_redirectTarget i source target f₀
  addPred b _ := continuing_modifyBlock b _ f₀
  removePredAt b idx := continuing_removePredAt b idx f₀

/-- What a call keeps, also where it reports an error. -/
theorem continues_call {call : Call} (hm : f.Matched) (hs : f.Structured) (hindexed : Indexed f)
    (h : call.edit.run f = (r, f')) (hr : ∀ text, r ≠ .error (.crash text)) : f.Continues f' :=
  (kept_continues f).call (.refl hm) (continues_replaceAllUses hm hindexed)
    (fun hrun => continues_removeBlocks hm hs hindexed hrun hr) h hr

/-- A function that calls have made of a new one, with the states that it has passed, the last one first. -/
inductive History : List Function → Function → Prop
  | new (name : String) (paramCount : Nat) (returnsValue : Bool) :
    History [] (Function.new name paramCount returnsValue)
  | step {past : List Function} {f f' : Function} {r : Except Failure Unit} (call : Call) (h : History past f)
    (hrun : call.edit.run f = (r, f')) (hr : ∀ text, r ≠ .error (.crash text)) : History (f :: past) f'

variable {past : List Function}

/-- A function with a history was reached. -/
theorem History.reached (h : History past f) : Reached f := by
  induction h with
  | new name paramCount returnsValue => exact .new name paramCount returnsValue
  | @step past f f' r call _ hrun hr ih =>
    match r, hr with
    | .ok (), _ => exact .done call ih hrun
    | .error (.error cause), _ => exact .failed call ih hrun
    | .error (.crash text), hr => exact absurd rfl (hr text)

/-- The states that a function has passed were reached. -/
theorem History.reached_of_mem (h : History past f) : ∀ g ∈ past, Reached g := by
  induction h with
  | new => exact fun _ hg => absurd hg List.not_mem_nil
  | step _ hpast _ _ ih => exact List.forall_mem_cons.2 ⟨hpast.reached, ih⟩

/-- A function that was reached has a history. -/
theorem Reached.exists_history (h : Reached f) : ∃ past, History past f := by
  induction h with
  | new name paramCount returnsValue => exact ⟨[], .new name paramCount returnsValue⟩
  | done call _ hrun ih =>
    obtain ⟨past, hpast⟩ := ih
    exact ⟨_, .step call hpast hrun fun _ => nofun⟩
  | failed call _ hrun ih =>
    obtain ⟨past, hpast⟩ := ih
    exact ⟨_, .step call hpast hrun fun _ => nofun⟩

/-- A function keeps what every state had that it has passed. -/
theorem History.continues (h : History past f) : f.Matched ∧ ∀ g ∈ past, g.Continues f := by
  induction h with
  | new name paramCount returnsValue => exact ⟨Function.matched_new name paramCount returnsValue, by simp⟩
  | @step past f f' r call hpast hrun hr ih =>
    have hcall := continues_call ih.1 hpast.reached.structured hpast.reached.indexed hrun hr
    refine ⟨hcall.matched, fun g hg => ?_⟩
    rcases List.mem_cons.1 hg with rfl | hg
    · exact hcall
    · exact (ih.2 g hg).trans hcall

/-- Instructions and results name each other in every function that calls have made. -/
theorem Reached.matched (h : Reached f) : f.Matched := by
  obtain ⟨past, hpast⟩ := h.exists_history
  exact hpast.continues.1

/-! ## Operands of an accepted function -/

/-- Where an instruction stands. -/
theorem mem_placedInsts_iff (h : Reached f) : i ∈ f.placedInsts ↔ f.Stands i := by
  rw [Function.placedInsts, List.mem_flatMap]
  exact exists_congr fun b => and_congr_right fun _ => h.structured.listed.placed b i

/-- What verification accepts of an operand. -/
theorem live_of_verify (hok : f.verify = .ok ()) {v : ValueId} (hi : i ∈ f.placedInsts) (hv : v ∈ f.operands i) :
    (f.value v).live = true := by
  obtain ⟨b, hb, hmem⟩ := List.mem_flatMap.1 hi
  obtain ⟨succs, -, hall, -⟩ := Function.checked_of_verify hok hb
  obtain ⟨pos, hpos⟩ := List.getElem?_of_mem hmem
  obtain ⟨slot, hslot⟩ := List.getElem?_of_mem hv
  exact ((hall i pos (List.mem_zipIdx_iff_getElem?.2 hpos)).operands v slot
    (List.mem_zipIdx_iff_getElem?.2 hslot)).1

/-- In a function that verification accepts, an operand of a placed instruction that is a result is the live result of
an instruction that is placed, too, if it was ever placed: it stands in a block of the layout exactly if it stood in a
block of the layout in some state that the function has passed. -/
theorem operands_of_verify {past : List Function} (h : History past f) (hok : f.verify = .ok ()) {i j : InstId}
    {v : ValueId} (hi : i ∈ f.placedInsts) (hv : v ∈ f.operands i) (hkind : (f.value v).kind = .inst j) :
    f.result? j = some v ∧ (f.value v).live = true ∧ (j ∈ f.placedInsts ↔ ∃ g ∈ f :: past, j ∈ g.placedInsts) := by
  obtain ⟨hmatched, hpast⟩ := h.continues
  have hresult : f.result? j = some v :=
    hmatched.result_of_kind j v (lt_size_of_mem_operands h.reached.indexed hv) hkind
  have hlive := live_of_verify hok hi hv
  refine ⟨hresult, hlive, fun hj => ⟨f, List.mem_cons_self, hj⟩, ?_⟩
  rintro ⟨g, hg, hj⟩
  rcases List.mem_cons.1 hg with rfl | hg
  · exact hj
  rw [mem_placedInsts_iff h.reached]
  rw [mem_placedInsts_iff (h.reached_of_mem g hg)] at hj
  -- Had the instruction left the layout since, the operand would be dead.
  refine ((hpast g hg).left j hj).resolve_right fun hdead => ?_
  rw [hdead v hresult] at hlive
  cases hlive

/-- A function that returns a sum which stands in no block. -/
def unplacedSum : Function where
  name := "f"
  returnsValue := true
  params := [0]
  values := #[{ kind := .param 0, uses := [⟨0, 0⟩, ⟨0, 1⟩] }, { kind := .inst 0, uses := [⟨1, 0⟩] }]
  insts := #[
    { kind := .binary .add, operands := [0, 0], result := some 1 },
    { kind := .ret, operands := [1], result := none, block := some 0 }]
  blocks := #[{ name := "entry", insts := [1] }]
  layout := [0]

/-- Verification accepts a function whose last instruction reads the result of an instruction that was created and
never placed. -/
theorem operands_of_verify_neverPlaced : ∃ past, History past unplacedSum ∧ unplacedSum.verify = .ok () ∧
    1 ∈ unplacedSum.placedInsts ∧ 1 ∈ unplacedSum.operands 1 ∧ (unplacedSum.value 1).kind = .inst 0 ∧
    0 ∉ unplacedSum.placedInsts ∧
    unplacedSum.result? 0 = some 1 ∧ (unplacedSum.value 1).live = true ∧
    (0 ∈ unplacedSum.placedInsts ↔ ∃ g ∈ unplacedSum :: past, 0 ∈ g.placedInsts) := by
  have hok : unplacedSum.verify = .ok () := by cbv
  obtain ⟨past, hpast⟩ : ∃ past, History past unplacedSum := by
    have hblock := Reached.done (.createBlock "entry") (.new "f" 1 true) rfl
    have hsum := Reached.done (.createInst (.binary .add) [0, 0] true) hblock rfl
    have hret := Reached.done (.createInst .ret [1] false) hsum rfl
    exact (Reached.done (.pushBack 0 1) hret (by cbv)).exists_history
  exact ⟨past, hpast, hok, by decide, by decide, rfl, by decide,
    operands_of_verify hpast hok (by decide : 1 ∈ unplacedSum.placedInsts) (by decide) rfl⟩

end Edit

end SsaCompiler
