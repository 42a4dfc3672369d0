import SsaCompiler.Proofs.Ir.SuccessfulEdits
import SsaCompiler.Proofs.Text.FinishedBodies

/-!
# Building that succeeds

A builder stands at a block that has no terminator yet (`Builder.Open`). It appends every instruction whose operands are
values of the function, and it fails on none of the promises that the edits ask for. What is appended is told by where
the block leads afterwards and by whether it has its terminator (`Function.Grown`); all other blocks stay as they are.
-/

set_option autoImplicit false

namespace SsaCompiler

open Edits Relation

namespace Function

variable {f f' f'' : Function}

/-- Code was appended to a block: it leads to some targets more, and it may have its terminator now. -/
structure Grown (f f' : Function) (c : BlockId) (targets : List BlockId) (ended : Bool) : Prop where
  blocks_size : f'.blocks.size = f.blocks.size
  preds : ∀ t p, p ∈ f'.preds t ↔ p ∈ f.preds t ∨ p = c ∧ t ∈ targets
  /-- The other blocks without terminator stay so. -/
  stays : ∀ d, Edit.isTerminated f d = false → (d = c → ended = false) → Edit.isTerminated f' d = false

namespace Grown

variable {c : BlockId} {targets targets' : List BlockId} {ended ended' : Bool}

theorem trans (h : f.Grown f' c targets ended) (h' : f'.Grown f'' c targets' ended') :
    f.Grown f'' c (targets ++ targets') (ended || ended') := by
  refine ⟨h'.blocks_size.trans h.blocks_size, fun t p => ?_, fun d hd hended => ?_⟩
  · rw [h'.preds, h.preds, List.mem_append, and_or_left, or_assoc]
  · have hboth : d = c → ended = false ∧ ended' = false := fun heq => Bool.or_eq_false_iff.1 (hended heq)
    exact h'.stays d (h.stays d hd fun heq => (hboth heq).1) fun heq => (hboth heq).2

/-- The same instructions in the same blocks. -/
theorem of_same (hinst : ∀ i, f'.inst i = f.inst i) (hblock : ∀ b, f'.block b = f.block b)
    (hsize : f'.blocks.size = f.blocks.size) : f.Grown f' c [] false := by
  refine ⟨hsize, fun t p => ?_, fun d hd _ => ?_⟩
  · unfold Function.preds
    rw [hblock]
    exact ⟨.inl, fun h => h.resolve_right fun h => absurd h.2 List.not_mem_nil⟩
  · rwa [isTerminated_congr (congrArg _ (congrArg BlockData.insts (hblock d))) fun j _ =>
      congrArg InstData.kind (hinst j)]

end Grown

/-- More values are no code. -/
theorem MoreValues.grown (h : f.MoreValues f') (c : BlockId) : f.Grown f' c [] false :=
  .of_same h.inst h.block h.blocks_size

/-- An instruction that was put into a block. -/
theorem Put.grown {kind : InstKind} {operands : List ValueId} {b : BlockId} {before after : List InstId}
    (h : f.Put f' kind operands b before after) (hs : f.Sound) : f.Grown f' b kind.targets kind.isTerminator := by
  refine ⟨h.blocks_size, fun t p => ?_, fun d hd hterm => ?_⟩
  · rw [h.preds, List.mem_append, List.mem_replicate, ← Nat.pos_iff_ne_zero, List.count_pos_iff, and_comm (a := t ∈ _)]
  · by_cases hlast : d = b ∧ after = []
    · obtain ⟨rfl, rfl⟩ := hlast
      unfold Edit.isTerminated
      rw [h.instsOf, if_pos rfl, List.getLast?_concat]
      dsimp only
      rw [h.kind_new]
      exact hterm rfl
    · rw [h.isTerminated hs fun heq hnil => hlast ⟨heq, hnil⟩]
      exact hd

end Function

namespace ModuleEdit

variable {id : FuncId} {m m' : Module} {α : Type}

/-- Editing a function of the module, where the edit succeeds. -/
theorem exists_editFunction {e : Edit α} {a : α} {f' : Function} (hid : id < m.functions.size)
    (h : e.run (m.function id) = (.ok a, f')) :
    ∃ m', (editFunction id e).run m = (.ok a, m') ∧ m'.function id = f' := by
  have hat : m.functions[id]? = some (m.function id) := by
    unfold Module.function
    rw [Array.getD_eq_getD_getElem?, Array.getElem?_eq_getElem hid]
    rfl
  have hrun : (editFunction id e).run m = (.ok a, { m with functions := m.functions.setIfInBounds id f' }) := by
    unfold editFunction
    rw [run_get_bind, hat]
    dsimp only
    rw [h]
    rfl
  obtain ⟨f₁, he, -, -, heq⟩ := editFunction_eq_ok hrun
  rw [h] at he
  cases he
  exact ⟨_, hrun, heq⟩

/-- A format is cut into pieces. -/
theorem succeeds_formatPieces (chunks : List (List Char)) :
    ∀ m : Module, ∃ pieces m', (Builder.formatPieces chunks).run m = (.ok pieces, m') := by
  induction chunks with
  | nil => exact fun m => ⟨_, _, rfl⟩
  | cons chunk rest ih =>
    intro m
    unfold Builder.formatPieces
    dsimp only
    split
    · refine Succeeds.bind (.pure _ m) fun _ m₁ _ => .bind (ih m₁) fun _ m₂ _ => .pure _ m₂
    · refine Succeeds.bind ⟨_, _, rfl⟩ fun _ m₁ _ => .bind (.pure _ m₁) fun _ m₂ _ => .bind (ih m₂) fun _ m₃ _ => .pure _ m₃

end ModuleEdit

namespace Builder

open ModuleEdit

variable {b : Builder} {m : Module} {c : BlockId}

/-- A builder at a block without terminator. -/
structure Open (b : Builder) (m : Module) (c : BlockId) : Prop where
  block : b.block = some c
  func_lt : b.func < m.functions.size
  sound : (m.function b.func).Sound
  block_lt : c < (m.function b.func).blocks.size
  unended : Edit.isTerminated (m.function b.func) c = false

namespace Open

variable (h : b.Open m c)

include h

/-- The builder finds its block. -/
theorem run_current : b.current.run m = (.ok c, m) := by
  unfold current
  rw [h.block]
  rfl

section

variable (kind : InstKind) (operands : List ValueId)

include kind operands

/-- An instruction that reads values of the function is appended. -/
theorem emit (hasResult : Bool) (hphi : kind.isPhi = false)
    (hoperands : ∀ v ∈ operands, v < (m.function b.func).values.size) :
    ∃ i f₁ m', (b.emit kind operands hasResult).run m = (.ok i, m') ∧
      (Edit.createInst kind operands hasResult).run (m.function b.func) = (.ok i, f₁) ∧
      (Edit.pushBack c i).run f₁ = (.ok (), m'.function b.func) := by
  obtain ⟨i, f₁, hcreate⟩ := @Edit.succeeds_createInst _ kind operands hasResult hoperands
  obtain ⟨rfl, hcreated⟩ := Edit.created_createInst hcreate
  have hnew : f₁.inst (m.function b.func).insts.size = _ := (hcreated.inst _).trans (Function.update_self ..)
  obtain ⟨⟨⟩, f₂, hpush⟩ : Succeeds (Edit.pushBack c (m.function b.func).insts.size) f₁ := by
    refine Edit.succeeds_pushBack ?_ ?_ ?_ (hcreated.blocks_size ▸ h.block_lt) ?_
    · rw [Function.isTerminated_congr (congrArg _ (congrArg BlockData.insts (hcreated.block c))) fun j hj =>
        Function.kind_created h.sound hcreate hj]
      exact h.unended
    · rw [Function.kind, hnew]
      exact hphi
    · rw [Function.blockOf?, hnew]
    · rw [hcreated.insts_size]
      exact Nat.lt_succ_self _
  have hrun : (do
      let i ← Edit.createInst kind operands hasResult
      Edit.pushBack c i
      return i : Edit InstId).run (m.function b.func) = (.ok (m.function b.func).insts.size, f₂) := by
    rw [run_bind, hcreate]
    dsimp only
    rw [run_bind, hpush]
    rfl
  obtain ⟨m', hedit, hat⟩ := exists_editFunction h.func_lt hrun
  refine ⟨_, f₁, m', ?_, hcreate, by rw [hat]; exact hpush⟩
  unfold Builder.emit
  rw [run_bind, h.run_current]
  exact hedit

/-- An instruction that leads nowhere is appended. -/
theorem emitAlone (hasResult : Bool) (hphi : kind.isPhi = false) (htargets : kind.targets = [])
    (hvalued : kind.alwaysGives = true → hasResult = true)
    (hoperands : ∀ v ∈ operands, v < (m.function b.func).values.size) :
    ∃ i m', (b.emit kind operands hasResult).run m = (.ok i, m') ∧
      (m.function b.func).Grown (m'.function b.func) c [] kind.isTerminator ∧
      ((m'.function b.func).result? i).isSome = hasResult := by
  obtain ⟨i, f₁, m', hrun, hcreate, hpush⟩ := h.emit kind operands hasResult hphi hoperands
  obtain ⟨-, -, hput⟩ := Function.put_append h.sound hvalued hcreate hpush (by rw [htargets]; rfl)
  refine ⟨i, m', hrun, htargets ▸ hput.grown h.sound, ?_⟩
  obtain ⟨rfl, hcreated⟩ := Edit.created_createInst hcreate
  obtain ⟨-, -, -, hbecomes, -⟩ := Edit.pushBack_spec hpush
  unfold Function.result?
  rw [hbecomes.inst, Function.update_self, hcreated.inst, Function.update_self]
  cases hasResult <;> rfl

/-- An instruction is appended, and its result is looked up. -/
theorem emitResult (hasResult : Bool) (hphi : kind.isPhi = false) (htargets : kind.targets = [])
    (hvalued : kind.alwaysGives = true → hasResult = true)
    (hoperands : ∀ v ∈ operands, v < (m.function b.func).values.size) :
    ∃ result i m', (b.emitResult kind operands hasResult).run m = (.ok result, m') ∧
      (m.function b.func).Grown (m'.function b.func) c [] kind.isTerminator ∧
      result = (m'.function b.func).result? i ∧ result.isSome = hasResult := by
  obtain ⟨i, m', hrun, hgrown, hresult⟩ := h.emitAlone kind operands hasResult hphi htargets hvalued hoperands
  refine ⟨_, i, m', ?_, hgrown, rfl, hresult⟩
  unfold Builder.emitResult
  rw [run_bind, hrun]
  rfl

/-- An instruction is appended that has a result. -/
theorem emitValue (hphi : kind.isPhi = false) (htargets : kind.targets = [])
    (hoperands : ∀ v ∈ operands, v < (m.function b.func).values.size) :
    ∃ v i m', (b.emitValue kind operands).run m = (.ok v, m') ∧
      (m.function b.func).Grown (m'.function b.func) c [] kind.isTerminator ∧
      (m'.function b.func).result? i = some v := by
  obtain ⟨result, i, m', hrun, hgrown, hresult, hsome⟩ := h.emitResult kind operands true hphi htargets (fun _ => rfl) hoperands
  obtain ⟨v, rfl⟩ := Option.isSome_iff_exists.1 hsome
  refine ⟨v, i, m', ?_, hgrown, hresult.symm⟩
  unfold Builder.emitValue
  rw [run_bind, hrun]
  rfl

/-- A terminator is appended with its edges, which lead to blocks of the function. -/
theorem emitEdges (edges : Edit PUnit) (hphi : kind.isPhi = false) (hvalued : kind.alwaysGives = false)
    (hoperands : ∀ v ∈ operands, v < (m.function b.func).values.size)
    (htargets : ∀ t ∈ kind.targets, t < (m.function b.func).blocks.size)
    (hedges : ∀ f, edges.run f = (kind.targets.forM fun t => Edit.addPred t c).run f) :
    ∃ i m₁ m', (b.emit kind operands false).run m = (.ok i, m₁) ∧ (b.edit edges).run m₁ = (.ok ⟨⟩, m') ∧
      (m.function b.func).Grown (m'.function b.func) c kind.targets kind.isTerminator := by
  obtain ⟨i, f₁, m₁, hrun, hcreate, hpush⟩ := h.emit kind operands false hphi hoperands
  have hsize : (m₁.function b.func).blocks.size = (m.function b.func).blocks.size :=
    (Edit.pushBack_spec hpush).2.2.2.1.blocks_size.trans (Edit.created_createInst hcreate).2.blocks_size
  obtain ⟨⟨⟩, f', hadd⟩ : Succeeds (kind.targets.forM fun t => Edit.addPred t c) (m₁.function b.func) := by
    refine Succeeds.forM_of_keeps (P := fun f => f.blocks.size = (m.function b.func).blocks.size)
      (fun t ht f hf => ⟨Edit.succeeds_modifyBlock (hf ▸ htargets t ht) _, fun f' hrun => ?_⟩) hsize
    obtain ⟨-, -, hbecomes, -⟩ := Edit.addPred_spec hrun
    exact hbecomes.blocks_size.trans hf
  obtain ⟨f₂, -, hfunctions, -, -⟩ := editFunction_eq_ok (by
    unfold Builder.emit at hrun
    rwa [run_bind, h.run_current] at hrun)
  obtain ⟨m', hedit, hat⟩ := exists_editFunction (hfunctions ▸ h.func_lt) ((hedges _).trans hadd)
  obtain ⟨-, -, hput⟩ := Function.put_append h.sound (fun hgives => absurd hgives (by rw [hvalued]; exact Bool.false_ne_true))
    hcreate hpush (hat ▸ hadd)
  exact ⟨i, m₁, m', hrun, hedit, hput.grown h.sound⟩

end

/-- A jump is appended. -/
theorem jump {target : BlockId} (htarget : target < (m.function b.func).blocks.size) :
    ∃ i m', (b.jump target).run m = (.ok i, m') ∧
      (m.function b.func).Grown (m'.function b.func) c [target] true := by
  obtain ⟨i, m₁, m', hemit, hadd, hgrown⟩ := h.emitEdges (.jump target) [] (Edit.addPred target c) rfl rfl (fun v hv => absurd hv List.not_mem_nil)
    (fun t ht => List.mem_singleton.1 ht ▸ htarget) fun f => by
      change _ = (Edit.addPred target c >>= fun _ => pure ()).run f
      rw [bind_pure_unit]
  refine ⟨i, m', ?_, hgrown⟩
  unfold Builder.jump
  rw [run_bind, h.run_current]
  dsimp only
  rw [run_bind, hemit]
  dsimp only
  rw [run_bind, hadd]
  rfl

/-- A branch is appended. -/
theorem branch {cond : ValueId} {thenBlock elseBlock : BlockId} (hcond : cond < (m.function b.func).values.size)
    (hthen : thenBlock < (m.function b.func).blocks.size) (helse : elseBlock < (m.function b.func).blocks.size) :
    ∃ i m', (b.branch cond thenBlock elseBlock).run m = (.ok i, m') ∧
      (m.function b.func).Grown (m'.function b.func) c [thenBlock, elseBlock] true := by
  obtain ⟨i, m₁, m', hemit, hadd, hgrown⟩ := h.emitEdges (.branch thenBlock elseBlock) [cond] (do
      Edit.addPred thenBlock c
      Edit.addPred elseBlock c) rfl rfl (fun v hv => List.mem_singleton.1 hv ▸ hcond) (fun t ht => by
        rcases List.mem_cons.1 ht with rfl | ht
        · exact hthen
        · exact List.mem_singleton.1 ht ▸ helse) fun f => by
      change _ = (Edit.addPred thenBlock c >>= fun _ => Edit.addPred elseBlock c >>= fun _ => pure ()).run f
      rw [bind_pure_unit]
  refine ⟨i, m', ?_, hgrown⟩
  unfold Builder.branch
  rw [run_bind, h.run_current]
  dsimp only
  rw [run_bind, hemit]
  dsimp only
  rw [run_bind, hadd]
  rfl

/-- A return is appended. -/
theorem ret {value : Option ValueId} (hvalue : ∀ v ∈ value, v < (m.function b.func).values.size) :
    ∃ i m', (b.ret value).run m = (.ok i, m') ∧ (m.function b.func).Grown (m'.function b.func) c [] true := by
  obtain ⟨i, m', hrun, hgrown, -⟩ := h.emitAlone .ret value.toList false rfl rfl
    (fun hgives => Bool.noConfusion hgives) fun v hv => hvalue v (Option.mem_toList.1 hv)
  exact ⟨i, m', hrun, hgrown⟩

/-- A builder stays open while the module gets strings and the function values. -/
theorem of_moreValues {m' : Module} (hsize : m'.functions.size = m.functions.size)
    (hmore : (m.function b.func).MoreValues (m'.function b.func)) : b.Open m' c where
  block := h.block
  func_lt := hsize ▸ h.func_lt
  sound := hmore.sound h.sound
  block_lt := hmore.blocks_size ▸ h.block_lt
  unended := (hmore.grown c).stays c h.unended fun _ => rfl

variable {args : List ValueId}

/-- A print is appended. -/
theorem print (format : String) (hargs : ∀ v ∈ args, v < (m.function b.func).values.size) :
    ∃ i m', (b.print format args).run m = (.ok i, m') ∧ (m.function b.func).Grown (m'.function b.func) c [] false := by
  obtain ⟨pieces, m₁, hpieces⟩ := succeeds_formatPieces (splitFormat (StringConst.strip format.toList)) m
  have hbuilt := b.builds_formatPieces (S := Function.MoreValues) _ hpieces
  have hmore := Function.moreValues_of_steps hbuilt.steps
  obtain ⟨i, m', hemit, hgrown, -⟩ := (h.of_moreValues hbuilt.size hmore).emitAlone (.print pieces) args false
    rfl rfl (fun hgives => Bool.noConfusion hgives) fun v hv => Nat.lt_of_lt_of_le (hargs v hv) hmore.values_size
  refine ⟨i, m', ?_, (hmore.grown c).trans hgrown⟩
  unfold Builder.print
  rw [run_bind, hpieces]
  exact hemit

/-- A call of a builtin is appended. -/
theorem callBuiltin (callee : Builtin) (hargs : ∀ v ∈ args, v < (m.function b.func).values.size) :
    ∃ result i m', (b.callBuiltin callee args).run m = (.ok result, m') ∧
      (m.function b.func).Grown (m'.function b.func) c [] false ∧
      result = (m'.function b.func).result? i ∧ result.isSome = callee.returnsValue :=
  h.emitResult _ _ _ rfl rfl (fun hgives => Bool.noConfusion hgives) hargs

/-- A call is appended. -/
theorem call (callee : FuncId) (hargs : ∀ v ∈ args, v < (m.function b.func).values.size) :
    ∃ result i m', (b.call callee args).run m = (.ok result, m') ∧
      (m.function b.func).Grown (m'.function b.func) c [] false ∧
      result = (m'.function b.func).result? i ∧ result.isSome = (m.function callee).returnsValue := by
  obtain ⟨m₁, hnote, hat⟩ := exists_editFunction (e := Edit.addCallee callee) (m := m) h.func_lt rfl
  have hmore : (m.function b.func).MoreValues (m₁.function b.func) := hat ▸ Edit.addCallee_spec rfl
  obtain ⟨-, -, hsize, -, -⟩ := editFunction_eq_ok hnote
  obtain ⟨result, i, m', hemit, hgrown, hresult, hsome⟩ := (h.of_moreValues hsize hmore).emitResult
    (.call (.func callee)) args (m.function callee).returnsValue rfl rfl (fun hgives => Bool.noConfusion hgives)
    fun v hv => Nat.lt_of_lt_of_le (hargs v hv) hmore.values_size
  refine ⟨result, i, m', ?_, (hmore.grown c).trans hgrown, hresult, hsome⟩
  unfold Builder.call
  rw [run_get_bind]
  dsimp only
  rw [run_bind, show (b.edit (Edit.addCallee callee)).run m = _ from hnote]
  exact hemit

end Open

/-- An empty phi is put into a block. -/
theorem exists_emptyPhi (hfunc : b.func < m.functions.size) (hs : (m.function b.func).Sound)
    (hc : c < (m.function b.func).blocks.size) :
    ∃ phi v m', (b.emptyPhi c).run m = (.ok (phi, v), m') ∧ (m.function b.func).Grown (m'.function b.func) c [] false ∧
      v < (m'.function b.func).values.size := by
  obtain ⟨i, f₁, hcreate⟩ := @Edit.succeeds_createInst (m.function b.func) .phi [] true fun v hv => absurd hv List.not_mem_nil
  obtain ⟨rfl, hcreated⟩ := Edit.created_createInst hcreate
  have hnew : f₁.inst (m.function b.func).insts.size = _ := (hcreated.inst _).trans (Function.update_self ..)
  obtain ⟨⟨⟩, f₂, hinsert⟩ : Succeeds (Edit.insertPhi c (m.function b.func).insts.size) f₁ := by
    refine Edit.succeeds_insertPhi ?_ ?_ (hcreated.blocks_size ▸ hc) ?_
    · rw [Function.kind, hnew]
      rfl
    · rw [Function.blockOf?, hnew]
    · rw [hcreated.insts_size]
      exact Nat.lt_succ_self _
  have hresult : f₂.result? (m.function b.func).insts.size = some (m.function b.func).values.size := by
    obtain ⟨-, -, -, -, hbecomes, -⟩ := Edit.place_spec (Edit.place_of_insertPhi hinsert).2
    rw [Function.result?, hbecomes.inst, Function.update_self, hnew]
    rfl
  have hrun : (do
      let i ← Edit.createInst .phi [] true
      Edit.insertPhi c i
      let v ← Edit.ask (·.resultOf i)
      return (i, v) : Edit (InstId × ValueId)).run (m.function b.func) =
        (.ok ((m.function b.func).insts.size, (m.function b.func).values.size), f₂) := by
    rw [run_bind, hcreate]
    dsimp only
    rw [run_bind, hinsert]
    dsimp only
    rw [Edit.run_ask_bind _ (Edit.resultOf_of_result hresult)]
    rfl
  obtain ⟨m', hedit, hat⟩ := exists_editFunction hfunc hrun
  refine ⟨_, _, m', hedit, ?_, ?_⟩
  · rw [hat]
    exact (Function.put_phi hs hcreate hinsert).2.grown hs
  · rw [hat]
    exact ((Edit.sound_newPhi hs hcreate hinsert).kind_of_result _ _ hresult).1

end Builder

end SsaCompiler
