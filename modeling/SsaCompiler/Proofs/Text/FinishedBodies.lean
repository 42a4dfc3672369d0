import SsaCompiler.Proofs.Text.ArrangedCode
import SsaCompiler.Proofs.Text.ReadModules
import Mathlib

/-!
# Finished bodies

A body is built in five parts: its parameters are named, its blocks are created, its phis are put into them without
slots, its statements are appended, and the phis are filled. The parts before the last leave the phis empty (`Opened`),
every block gets its terminator with its last statement, and filling gives a phi one slot per predecessor, with the
value that the text gives for that predecessor. So whatever order the blocks were built in, a function that was read
passes verification unless something leads to its entry.
-/

set_option autoImplicit false

namespace SsaCompiler

open Edits Relation

variable {block c : BlockId} {source : FunctionSource} {i phi : InstId} {kind : InstKind}
variable {blocks : List (String × BlockId)} {operands : List ValueId} {s : Statement}

namespace Function

variable {f f' : Function}

/-! ## Phis without slots -/

/-- The phis of a function, with their blocks and statements; none has a slot yet. -/
structure Opened (f : Function) (phis : List (BlockId × InstId × Statement)) : Prop where
  nodup : (phis.map fun e => e.2.1).Nodup
  phi : ∀ e ∈ phis, (f.kind e.2.1).isPhi = true ∧ f.operands e.2.1 = [] ∧ f.blockOf? e.2.1 = some e.1 ∧
    e.2.2.op.isPhi = true
  all : ∀ i, (f.kind i).isPhi = true → ∃ e ∈ phis, e.2.1 = i

/-- A phi has a number of the function. -/
theorem lt_size_of_isPhi (h : (f.kind i).isPhi = true) : i < f.insts.size := by
  by_contra hge
  unfold Function.kind at h
  rw [Edit.inst_of_size_le (Nat.le_of_not_lt hge)] at h
  cases h

namespace Opened

variable {phis : List (BlockId × InstId × Statement)}

theorem congr (h : f.Opened phis) (hinst : ∀ i, f'.inst i = f.inst i) : f'.Opened phis := by
  refine ⟨h.nodup, fun e he => ?_, fun i hi => ?_⟩
  · unfold kind operands blockOf?
    rw [hinst]
    exact h.phi e he
  · unfold kind at hi
    rw [hinst] at hi
    exact h.all i hi

variable {b : BlockId} {after before : List InstId}

theorem append (h : f.Opened phis) (hput : f.Put f' kind operands b before after) (hphi : kind.isPhi = false) :
    f'.Opened phis := by
  refine ⟨h.nodup, fun e he => ?_, fun i hi => ?_⟩
  · have hne : e.2.1 ≠ f.insts.size := Nat.ne_of_lt (lt_size_of_isPhi (h.phi e he).1)
    unfold Function.kind Function.operands blockOf?
    rw [hput.others _ hne]
    exact h.phi e he
  · by_cases hnew : i = f.insts.size
    · rw [hnew, hput.kind_new, hphi] at hi
      cases hi
    · unfold Function.kind at hi
      rw [hput.others i hnew] at hi
      exact h.all i hi

/-- A new phi. -/
theorem add (h : f.Opened phis) (hput : f.Put f' .phi [] b before after) (hs : s.op.isPhi = true) :
    f'.Opened (phis ++ [(b, f.insts.size, s)]) := by
  refine ⟨?_, fun e he => ?_, fun i hi => ?_⟩
  · rw [List.map_append, List.nodup_append]
    refine ⟨h.nodup, List.nodup_singleton _, fun i hi j hj => ?_⟩
    obtain ⟨e, he, rfl⟩ := List.mem_map.1 hi
    rw [List.mem_singleton.1 hj]
    exact Nat.ne_of_lt (lt_size_of_isPhi (h.phi e he).1)
  · rcases List.mem_append.1 he with he | he
    · have hne : e.2.1 ≠ f.insts.size := Nat.ne_of_lt (lt_size_of_isPhi (h.phi e he).1)
      unfold Function.kind Function.operands blockOf?
      rw [hput.others _ hne]
      exact h.phi e he
    · rw [List.mem_singleton.1 he]
      exact ⟨by rw [hput.kind_new]; rfl, hput.operands_new, hput.blockOf_new, hs⟩
  · by_cases hnew : i = f.insts.size
    · exact ⟨_, List.mem_append_right _ (List.mem_singleton.2 rfl), hnew.symm⟩
    · unfold Function.kind at hi
      rw [hput.others i hnew] at hi
      obtain ⟨e, he, hei⟩ := h.all i hi
      exact ⟨e, List.mem_append_left _ he, hei⟩

end Opened

/-- Building code leaves the phis and the number of blocks alone. -/
theorem codeSteps_opened {phis : List (BlockId × InstId × Statement)} (h : ReflTransGen CodeStep f f') (hs : f.Sound)
    (ho : f.Opened phis) : f'.Sound ∧ f'.Opened phis ∧ f'.blocks.size = f.blocks.size := by
  induction h with
  | refl => exact ⟨hs, ho, rfl⟩
  | tail _ hstep ih =>
    obtain ⟨hs₁, ho₁, hsize⟩ := ih
    refine ⟨hstep.sound hs₁, ?_⟩
    cases hstep with
    | values h => exact ⟨ho₁.congr h.inst, h.blocks_size.trans hsize⟩
    | append hfits hphi hgives hvalued hcreate hpush hedges =>
      obtain ⟨-, -, hput⟩ := put_append hs₁ hvalued hcreate hpush hedges
      exact ⟨ho₁.append hput hphi, hput.blocks_size.trans hsize⟩

/-- Adding values changes no instruction and no block. -/
theorem moreValues_of_steps (h : ReflTransGen MoreValues f f') : f.MoreValues f' := by
  induction h with
  | refl => exact .refl f
  | tail _ hstep ih => exact ih.trans hstep

/-- Only operands of instructions differ. -/
structure SlotsOnly (f f' : Function) : Prop where
  kind : ∀ i, f'.kind i = f.kind i
  blockOf : ∀ i, f'.blockOf? i = f.blockOf? i
  block : ∀ b, f'.block b = f.block b
  blocks_size : f'.blocks.size = f.blocks.size

theorem SlotsOnly.refl (f : Function) : f.SlotsOnly f := ⟨fun _ => rfl, fun _ => rfl, fun _ => rfl, rfl⟩

theorem SlotsOnly.trans {f'' : Function} (h : f.SlotsOnly f') (h' : f'.SlotsOnly f'') : f.SlotsOnly f'' :=
  ⟨fun i => (h'.kind i).trans (h.kind i), fun i => (h'.blockOf i).trans (h.blockOf i),
    fun b => (h'.block b).trans (h.block b), h'.blocks_size.trans h.blocks_size⟩

theorem MoreValues.slotsOnly (h : f.MoreValues f') : f.SlotsOnly f' :=
  ⟨fun i => congrArg InstData.kind (h.inst i), fun i => congrArg InstData.block (h.inst i), h.block, h.blocks_size⟩

/-- A phi with one slot per predecessor, and equal slots for a predecessor that is repeated. -/
def Filled (f : Function) (b : BlockId) (phi : InstId) : Prop :=
  ∃ incoming : BlockId → ValueId, f.operands phi = (f.preds b).map incoming

end Function

namespace Builder

open ModuleEdit

variable (b : Builder) {m m' : Module}

variable {hasResult : Bool}

/-- Appending an instruction. -/
theorem emit_eq_ok (h : (b.emit kind operands hasResult).run m = (.ok i, m')) :
    ∃ c f₁, b.block = some c ∧ (Edit.createInst kind operands hasResult).run (m.function b.func) = (.ok i, f₁) ∧
      (Edit.pushBack c i).run f₁ = (.ok (), m'.function b.func) := by
  obtain ⟨c, m₁, hcurrent, hedit⟩ := bind_eq_ok h
  obtain ⟨hblock, rfl⟩ := b.current_eq_ok hcurrent
  obtain ⟨f₂, he, -, -, rfl⟩ := editFunction_eq_ok hedit
  obtain ⟨j, f₁, hcreate, h₁⟩ := bind_eq_ok he
  obtain ⟨⟨⟩, f₃, hpush, hpure⟩ := bind_eq_ok h₁
  cases hpure
  exact ⟨c, f₁, hblock, hcreate, hpush⟩

/-- The instruction that was appended is the one that was asked for. -/
theorem appended_emit (h : (b.emit kind operands hasResult).run m = (.ok i, m')) :
    (m'.function b.func).kind i = kind ∧ (m'.function b.func).operands i = operands := by
  obtain ⟨c, f₁, -, hcreate, hpush⟩ := b.emit_eq_ok h
  obtain ⟨rfl, hcreated⟩ := Edit.created_createInst hcreate
  obtain ⟨-, -, -, hbecomes, -⟩ := Edit.pushBack_spec hpush
  unfold Function.kind Function.operands
  rw [hbecomes.inst, Function.update_self, hcreated.inst, Function.update_self]
  exact ⟨rfl, rfl⟩

/-- A block with a terminator appended has it. -/
theorem isTerminated_emit (hterm : kind.isTerminator = true) (hc : b.block = some c)
    (h : (b.emit kind operands hasResult).run m = (.ok i, m')) : Edit.isTerminated (m'.function b.func) c = true := by
  obtain ⟨c', f₁, hblock, hcreate, hpush⟩ := b.emit_eq_ok h
  obtain rfl : c = c' := Option.some.inj (hc.symm.trans hblock)
  obtain ⟨-, -, -, hbecomes, -⟩ := Edit.pushBack_spec hpush
  have hinsts : (m'.function b.func).instsOf c = f₁.instsOf c ++ [i] := by
    unfold Function.instsOf
    rw [hbecomes.block, Function.update_self]
    rfl
  unfold Edit.isTerminated
  rw [hinsts, List.getLast?_concat]
  dsimp only
  rw [(b.appended_emit h).1]
  exact hterm

/-- Adding a predecessor changes no instruction. -/
theorem preserves_isTerminated_addPred (t p c : BlockId) :
    Preserves (fun f => Edit.isTerminated f c = true) (Edit.addPred t p) := by
  intro f f' _ hf h
  obtain ⟨-, -, hbecomes, -⟩ := Edit.addPred_spec h
  rw [Function.isTerminated_congr (f := f)]
  · exact hf
  · unfold Function.instsOf
    rw [hbecomes.block]
    exact Function.proj_update (p := fun d : BlockData => d.insts.getLast?) (by rfl) _
  · intro j _
    unfold Function.kind
    rw [hbecomes.inst]

theorem isTerminated_jump {target : BlockId} (hc : b.block = some c) (h : (b.jump target).run m = (.ok i, m')) :
    Edit.isTerminated (m'.function b.func) c = true := by
  obtain ⟨source, m₁, -, h₁⟩ := bind_eq_ok h
  obtain ⟨j, m₂, hemit, h₂⟩ := bind_eq_ok h₁
  obtain ⟨⟨⟩, m₃, hadd, hpure⟩ := bind_eq_ok h₂
  cases hpure
  obtain ⟨f', he, -, -, rfl⟩ := editFunction_eq_ok hadd
  exact preserves_isTerminated_addPred target source c (b.isTerminated_emit rfl hc hemit) he

theorem isTerminated_branch {cond : ValueId} {t e : BlockId} (hc : b.block = some c)
    (h : (b.branch cond t e).run m = (.ok i, m')) : Edit.isTerminated (m'.function b.func) c = true := by
  obtain ⟨source, m₁, -, h₁⟩ := bind_eq_ok h
  obtain ⟨j, m₂, hemit, h₂⟩ := bind_eq_ok h₁
  obtain ⟨⟨⟩, m₃, hadd, hpure⟩ := bind_eq_ok h₂
  cases hpure
  obtain ⟨f', he, -, -, rfl⟩ := editFunction_eq_ok hadd
  obtain ⟨⟨⟩, f₁, hthen, helse⟩ := bind_eq_ok he
  exact preserves_isTerminated_addPred e source c
    (preserves_isTerminated_addPred t source c (b.isTerminated_emit rfl hc hemit) hthen) helse

/-- Creating an empty phi. -/
theorem put_emptyPhi {v : ValueId} (hs : (m.function b.func).Sound)
    (h : (b.emptyPhi block).run m = (.ok (phi, v), m')) : phi = (m.function b.func).insts.size ∧ ∃ before after,
      (m.function b.func).Put (m'.function b.func) .phi [] block before after := by
  unfold emptyPhi Builder.edit at h
  obtain ⟨f', he, -, -, rfl⟩ := editFunction_eq_ok h
  obtain ⟨i, f₁, hcreate, h₁⟩ := bind_eq_ok he
  obtain ⟨_, f₂, hinsert, h₂⟩ := bind_eq_ok h₁
  obtain ⟨w, -, hpure⟩ := Edit.ask_bind_eq_ok h₂
  cases hpure
  exact ⟨(Edit.created_createInst hcreate).1, _, _, (Function.put_phi hs hcreate hinsert).2⟩

end Builder

variable {id : FuncId} {sources : List FunctionSource} {text : String}

namespace Reader

open ModuleEdit

variable (b : Builder) {r r' : Reading}

/-! ## Statements -/

variable {phis : List (BlockId × InstId × Statement)} {line : Nat}

theorem isTerminated_buildOp {named : Bool} {op : SourceOp} {result : Option ValueId} (hc : b.block = some c)
    (hop : op.isTerminator = true) (h : (buildOp b blocks line named op).run r = .ok (result, r')) :
    Edit.isTerminated (r'.module.function b.func) c = true := by
  cases op with
  | jump target =>
    obtain ⟨t, r₁, -, h₁⟩ := bind_eq_ok h
    obtain ⟨i, r₂, hchange, hpure⟩ := bind_eq_ok h₁
    cases hpure
    obtain ⟨m', hedit, rfl⟩ := change_eq_ok hchange
    exact b.isTerminated_jump hc hedit
  | branch cond thenBlock elseBlock =>
    obtain ⟨v, r₁, -, h₁⟩ := bind_eq_ok h
    obtain ⟨t, r₂, -, h₂⟩ := bind_eq_ok h₁
    obtain ⟨e, r₃, -, h₃⟩ := bind_eq_ok h₂
    obtain ⟨i, r₄, hchange, hpure⟩ := bind_eq_ok h₃
    cases hpure
    obtain ⟨m', hedit, rfl⟩ := change_eq_ok hchange
    exact b.isTerminated_branch hc hedit
  | ret given =>
    obtain ⟨r₀, r₁, -, h₁⟩ := bind_eq_ok h
    have hret : ∀ {v : Option ValueId} {r₂ : Reading}, StateT.run (do
        let _ ← Reader.change (b.ret v)
        return none : Reader (Option ValueId)) r₂ = .ok (result, r') →
        Edit.isTerminated (r'.module.function b.func) c = true := by
      intro v r₂ hrun
      obtain ⟨i, r₃, hchange, hpure⟩ := bind_eq_ok hrun
      cases hpure
      obtain ⟨m', hedit, rfl⟩ := change_eq_ok hchange
      exact b.isTerminated_emit rfl hc hedit
    dsimp only at h₁
    split at h₁ <;> obtain ⟨v, r₂, -, h₂⟩ := bind_eq_ok h₁ <;> exact hret h₂
  | binary | alloca | load | store | gep | call | print | phi => cases hop

/-- The statements of a block that ends in a terminator. -/
theorem isTerminated_statements {source : BlockSource} (hs : (r.module.function b.func).Sound) (hc : b.block = some c)
    (hterm : source.isTerminated = true) (hfits : source.Fits)
    (h : ((source.statements.filter fun s => !s.op.isPhi).forM (buildStatement b blocks)).run r = .ok (⟨⟩, r')) :
    Edit.isTerminated (r'.module.function b.func) c = true := by
  obtain ⟨before, s, hstatements, hs'⟩ : ∃ before s, source.statements = before ++ [s] ∧ s.op.isTerminator = true := by
    unfold BlockSource.isTerminated at hterm
    split at hterm
    · rename_i s hlast
      obtain ⟨before, hbefore⟩ := List.getLast?_eq_some_iff.1 hlast
      exact ⟨before, s, hbefore, hterm⟩
    · cases hterm
  have hphi : s.op.isPhi = false := by
    cases hop : s.op with
    | jump | branch | ret => rfl
    | binary | alloca | load | store | gep | call | print | phi =>
      rw [hop] at hs'
      cases hs'
  rw [hstatements, List.filter_append, List.filter_cons_of_pos (by rw [hphi]; rfl), List.filter_nil] at h
  change StateT.run (forM (_ ++ [s]) _) r = _ at h
  rw [List.forM_append] at h
  obtain ⟨⟨⟩, r₁, hbefore, h₁⟩ := bind_eq_ok h
  obtain ⟨⟨⟩, r₂, hlast, hpure⟩ := bind_eq_ok h₁
  cases hpure
  obtain ⟨result, r₃, hop, hdefine⟩ := bind_eq_ok hlast
  have hended := isTerminated_buildOp b hc hs' hop
  have hs₃ : (r₃.module.function b.func).Sound := by
    have hmem : ∀ t ∈ before ++ [s], t.op.Fits := fun t ht => hfits t (hstatements ▸ ht)
    have hbuilt := (Builds.forM (fun t ht => builds_buildStatement b blocks
      (hmem t (List.mem_append_left _ (List.mem_filter.1 ht).1))) hbefore).body
    have hbuilt' := (builds_buildOp b blocks _ _ (hmem s (List.mem_append_right _ (List.mem_singleton.2 rfl))) hop).body
    exact Function.BuildSteps.sound hbuilt'.steps (Function.BuildSteps.sound hbuilt.steps hs)
  have hrest : Module.Built Function.CodeStep b.func r₃.module r'.module := by
    split at hdefine
    · exact (builds_define b _ _ _ hdefine).code
    · cases hdefine
      exact .refl _ _
  exact Function.BuildSteps.isTerminated hrest.body.steps hs₃ hended

theorem isTerminated_buildReady {func : FuncId} {limit : Nat} :
    ∀ {pending left : List (BlockSource × BlockId)} {r r' : Reading}, (r.module.function func).Sound →
      (∀ p ∈ pending, p.1.isTerminated = true ∧ p.1.Fits) → (buildReady func blocks limit pending).run r = .ok (left, r') →
      ∀ p ∈ pending, p ∈ left ∨ Edit.isTerminated (r'.module.function func) p.2 = true := by
  induction limit with
  | zero =>
    intro pending left r r' _ _ h p hp
    cases h
    exact .inl hp
  | succ limit ih =>
    intro pending left r r' hs hterm h p hp
    have h₁ := Stateful.of_get_bind h
    dsimp only at h₁
    split at h₁
    · cases h₁
      exact .inl hp
    · rename_i k hk
      split at h₁
      · cases h₁
        exact .inl hp
      · rename_i source id hat
        obtain ⟨⟨⟩, r₂, hbody, hrest⟩ := bind_eq_ok h₁
        obtain ⟨hended', hfits⟩ := hterm _ (List.mem_of_getElem? hat)
        have hbuilt := (Builds.forM (fun t ht => builds_buildStatement ⟨func, some id⟩ blocks
          (hfits t (List.mem_filter.1 ht).1)) hbody).body
        have hs₂ : (r₂.module.function func).Sound := Function.BuildSteps.sound hbuilt.steps hs
        have hended := isTerminated_statements ⟨func, some id⟩ hs rfl hended' hfits hbody
        have hrest' := (builds_buildReady func blocks limit _
          (fun p hp => (hterm p (List.mem_of_mem_eraseIdx hp)).2) hrest).body
        obtain ⟨j, hj⟩ := List.mem_iff_getElem?.1 hp
        by_cases hjk : j = k
        · rw [hjk, hat] at hj
          cases hj
          exact .inr (Function.BuildSteps.isTerminated hrest'.steps hs₂ hended)
        · refine ih hs₂ (fun q hq => hterm q (List.mem_of_mem_eraseIdx hq)) hrest p ?_
          exact List.mem_eraseIdx_iff_getElem?.2 ⟨j, hjk, hj⟩

/-! ## Blocks and phis -/

/-- Creating the blocks: they get the next numbers, and no instruction changes. -/
theorem createBlocks_spec {sources : List BlockSource} : ∀ {created blocks : List (String × BlockId)} {r r' : Reading},
    (createBlocks b sources created).run r = .ok (blocks, r') →
      blocks.map (·.2) = created.map (·.2) ++ List.range' (r.module.function b.func).blocks.size sources.length ∧
      (r'.module.function b.func).blocks.size = (r.module.function b.func).blocks.size + sources.length ∧
      ∀ i, (r'.module.function b.func).inst i = (r.module.function b.func).inst i := by
  induction sources with
  | nil =>
    intro created blocks r r' h
    cases h
    exact ⟨(List.append_nil _).symm, rfl, fun _ => rfl⟩
  | cons source rest ih =>
    intro created blocks r r' h
    have hrest : StateT.run (do
        let id ← Reader.change (b.edit (Edit.createBlock source.name))
        createBlocks b rest (created ++ [(source.name, id)])) r = .ok (blocks, r') := by
      unfold createBlocks at h
      split at h
      · obtain ⟨_, _, hfault, -⟩ := bind_eq_ok h
        cases hfault
      · exact h
    obtain ⟨id, r₁, hchange, h₁⟩ := bind_eq_ok hrest
    obtain ⟨m₁, hedit, rfl⟩ := change_eq_ok hchange
    obtain ⟨f₁, he, -, -, hat⟩ := editFunction_eq_ok hedit
    obtain ⟨hid, hf₁⟩ := Edit.createBlock_spec he
    obtain ⟨hnames, hsize, hinst⟩ := ih h₁
    have hsize₁ : (m₁.function b.func).blocks.size = (r.module.function b.func).blocks.size + 1 := by
      rw [hat, hf₁]
      exact Array.size_push ..
    refine ⟨?_, ?_, fun i => (hinst i).trans ?_⟩
    · rw [hnames, List.map_append, List.append_assoc, List.length_cons, List.range'_succ, hid]
      exact congrArg _ (congrArg _ (congrArg (List.range' · _) hsize₁))
    · refine hsize.trans ?_
      rw [List.length_cons]
      change (m₁.function b.func).blocks.size + _ = _
      omega
    · change (m₁.function b.func).inst i = _
      rw [hat, hf₁]
      rfl

/-- Creating the phi of a statement. -/
theorem opened_createPhi (hs : (r.module.function b.func).Sound) (ho : (r.module.function b.func).Opened phis)
    (hphi : s.op.isPhi = true) (h : (createPhi b block s).run r = .ok (phi, r')) :
    (r'.module.function b.func).Opened (phis ++ [(block, phi, s)]) ∧
      (r'.module.function b.func).blocks.size = (r.module.function b.func).blocks.size := by
  obtain ⟨⟨i, v⟩, r₁, hchange, h₁⟩ := bind_eq_ok h
  obtain ⟨m₁, hedit, rfl⟩ := change_eq_ok hchange
  obtain ⟨rfl, before, after, hput⟩ := b.put_emptyPhi hs hedit
  have ho₁ := ho.add hput hphi
  dsimp only at h₁
  split at h₁
  · obtain ⟨⟨⟩, r₂, hdefine, hpure⟩ := bind_eq_ok h₁
    cases hpure
    have hmore := Function.moreValues_of_steps (builds_define b _ _ _ hdefine).steps
    exact ⟨ho₁.congr hmore.inst, hmore.blocks_size.trans hput.blocks_size⟩
  · cases h₁
    exact ⟨ho₁, hput.blocks_size⟩

/-- Creating the phis of all blocks. -/
theorem opened_createPhis {pending : List (BlockSource × BlockId)} {phis : List (List (BlockId × InstId × Statement))}
    (hs : (r.module.function id).Sound) (ho : (r.module.function id).Opened [])
    (h : (pending.mapM fun (p : BlockSource × BlockId) => (p.1.statements.filter fun s => s.op.isPhi).mapM fun s => do
        return (p.2, ← createPhi ⟨id, none⟩ p.2 s, s) : Reader _).run r = .ok (phis, r')) :
    (r'.module.function id).Sound ∧ (r'.module.function id).Opened phis.flatten ∧
      (r'.module.function id).blocks.size = (r.module.function id).blocks.size := by
  -- the phis found so far, over the blocks and over the statements of one block
  let P : List (BlockId × InstId × Statement) → Reading → Prop := fun found r₁ =>
    (r₁.module.function id).Sound ∧ (r₁.module.function id).Opened found ∧
      (r₁.module.function id).blocks.size = (r.module.function id).blocks.size
  have hstart : P [].flatten r := ⟨hs, ho, rfl⟩
  refine Stateful.mapM_builds (P := fun _ found => P found.flatten) (d := [])
    (fun p _ _ found r₁ r₂ new hP hrun => ?_) hstart h
  rw [List.flatten_append, List.flatten_singleton]
  refine Stateful.mapM_builds (P := fun _ => P) (d := []) (fun s hmem _ found r₃ r₄ e hP hrun => ?_) hP hrun
  obtain ⟨phi, r₅, hcreate, hpure⟩ := bind_eq_ok hrun
  cases hpure
  obtain ⟨hs₃, ho₃, hsize₃⟩ := hP
  obtain ⟨ho₄, hsize₄⟩ := opened_createPhi ⟨id, none⟩ hs₃ ho₃ (List.mem_filter.1 hmem).2 hcreate
  exact ⟨Function.BuildSteps.sound (createPhi_spec ⟨id, none⟩ hcreate).1.steps hs₃, ho₄, hsize₄.trans hsize₃⟩

/-! ## Filling phis -/

/-- Giving a phi a slot for each of some predecessors. -/
theorem forM_fill {incoming : List (BlockId × ValueId)} {name : BlockId → String} {preds : List BlockId} :
    ∀ {r r' : Reading},
      (preds.forM fun pred => match incoming.lookup pred with
        | some v => change (b.edit (Edit.pushOperand phi v))
        | none => fault line (.missingIncoming (name pred))).run r = .ok (⟨⟩, r') →
      (r.module.function b.func).SlotsOnly (r'.module.function b.func) ∧
      (∀ j, j ≠ phi → (r'.module.function b.func).operands j = (r.module.function b.func).operands j) ∧
      (r'.module.function b.func).operands phi = (r.module.function b.func).operands phi ++
        preds.map fun pred => (incoming.lookup pred).getD 0 := by
  induction preds with
  | nil =>
    intro r r' h
    cases h
    exact ⟨.refl _, fun _ _ => rfl, (List.append_nil _).symm⟩
  | cons pred rest ih =>
    intro r r' h
    obtain ⟨⟨⟩, r₁, hfirst, hrest⟩ := bind_eq_ok h
    obtain ⟨hsame, hothers, hphi⟩ := ih hrest
    dsimp only at hfirst
    split at hfirst
    · rename_i v hv
      obtain ⟨m₁, hedit, rfl⟩ := change_eq_ok hfirst
      obtain ⟨f₁, he, -, -, hat⟩ := editFunction_eq_ok hedit
      obtain ⟨hkind, hplace, -, -, hblock, hsize, hoperands⟩ := Function.pushOperand_same he
      rw [← hat] at hkind hplace hblock hsize hoperands
      refine ⟨.trans ⟨hkind, hplace, hblock, hsize⟩ hsame, fun j hj => ?_, ?_⟩
      · refine (hothers j hj).trans ?_
        rw [hoperands, if_neg hj]
      · refine hphi.trans ?_
        rw [hoperands, if_pos rfl, List.append_assoc, List.map_cons, hv]
        rfl
    · cases hfirst

/-- Filling a phi that has no slots. -/
theorem filled_fillPhi (hs : s.op.isPhi = true) (hempty : (r.module.function b.func).operands phi = [])
    (h : (fillPhi b blocks block phi s).run r = .ok ((), r')) :
    (r.module.function b.func).SlotsOnly (r'.module.function b.func) ∧
      (∀ j, j ≠ phi → (r'.module.function b.func).operands j = (r.module.function b.func).operands j) ∧
      (r'.module.function b.func).Filled block phi := by
  unfold fillPhi at h
  split at h
  · obtain ⟨incoming, r₁, hpairs, h₁⟩ := bind_eq_ok h
    have h₂ := Stateful.of_get_bind h₁
    have hmore := Function.moreValues_of_steps (builds_incomingPairs b _ _ _ _ hpairs).steps
    obtain ⟨hsame, hothers, hphi⟩ := forM_fill b h₂
    have hold : ∀ j, (r₁.module.function b.func).operands j = (r.module.function b.func).operands j := fun j =>
      congrArg InstData.operands (hmore.inst j)
    refine ⟨hmore.slotsOnly.trans hsame, fun j hj => (hothers j hj).trans (hold j), ?_⟩
    rw [hold, hempty, List.nil_append] at hphi
    refine ⟨_, hphi.trans (congrArg _ ?_)⟩
    exact (congrArg BlockData.preds (hsame.block block)).symm
  · rename_i hop
    cases hkind : s.op with
    | phi pairs => exact absurd hkind (hop pairs)
    | binary | alloca | load | store | gep | call | print | jump | branch | ret =>
      rw [hkind] at hs
      cases hs

/-- Filling all phis. -/
theorem filled_forM : ∀ {r r' : Reading}, (phis.map fun e => e.2.1).Nodup →
      (∀ e ∈ phis, (r.module.function b.func).operands e.2.1 = [] ∧ e.2.2.op.isPhi = true) →
      (phis.forM fun e => fillPhi b blocks e.1 e.2.1 e.2.2).run r = .ok (⟨⟩, r') →
      (r.module.function b.func).SlotsOnly (r'.module.function b.func) ∧
      (∀ j, j ∉ phis.map (fun e => e.2.1) →
        (r'.module.function b.func).operands j = (r.module.function b.func).operands j) ∧
      ∀ e ∈ phis, (r'.module.function b.func).Filled e.1 e.2.1 := by
  induction phis with
  | nil =>
    intro r r' _ _ h
    cases h
    exact ⟨.refl _, fun _ _ => rfl, fun e he => absurd he List.not_mem_nil⟩
  | cons e rest ih =>
    intro r r' hnodup hempty h
    obtain ⟨⟨⟩, r₁, hfirst, hrest⟩ := bind_eq_ok h
    obtain ⟨hnot, hnodup⟩ := List.nodup_cons.1 hnodup
    obtain ⟨hsame₁, hothers₁, hfilled₁⟩ := filled_fillPhi b (hempty e List.mem_cons_self).2
      (hempty e List.mem_cons_self).1 hfirst
    have hempty₁ : ∀ e' ∈ rest, (r₁.module.function b.func).operands e'.2.1 = [] ∧ e'.2.2.op.isPhi = true := by
      intro e' he'
      have hne : e'.2.1 ≠ e.2.1 := fun heq => hnot (List.mem_map.2 ⟨e', he', heq⟩)
      rw [hothers₁ _ hne]
      exact hempty e' (List.mem_cons_of_mem _ he')
    obtain ⟨hsame, hothers, hfilled⟩ := ih hnodup hempty₁ hrest
    refine ⟨hsame₁.trans hsame, fun j hj => ?_, fun e' he' => ?_⟩
    · rw [List.map_cons, List.mem_cons, not_or] at hj
      exact (hothers j hj.2).trans (hothers₁ j hj.1)
    · rcases List.mem_cons.1 he' with rfl | he'
      · obtain ⟨incoming, hslots⟩ := hfilled₁
        refine ⟨incoming, (hothers _ hnot).trans (hslots.trans (congrArg _ ?_))⟩
        exact (congrArg BlockData.preds (hsame.block e'.1)).symm
      · exact hfilled e' he'

end Reader

/-! ## Bodies -/

namespace Function

/-- A body that was built to its end. -/
structure Finished (f : Function) : Prop where
  sound : f.Sound
  arranged : f.Arranged
  nonempty : 0 < f.blocks.size
  ended : ∀ b, b < f.blocks.size → Edit.isTerminated f b = true
  filled : ∀ b, ∀ i ∈ f.instsOf b, (f.kind i).isPhi = true → f.Filled b i

namespace Finished

variable {f : Function} (h : f.Finished)

include h

variable {b : BlockId}

theorem mem_layout_iff : b ∈ f.layout ↔ b < f.blocks.size := by
  rw [h.sound.mem_layout, h.arranged.kept b]
  exact and_iff_left rfl

theorem ends (hb : b ∈ f.layout) : ∃ before t, f.instsOf b = before ++ [t] ∧
    (f.kind t).isTerminator = true ∧ ∀ i ∈ before, (f.kind i).isTerminator = false := by
  have hended := h.ended b (h.mem_layout_iff.1 hb)
  unfold Edit.isTerminated at hended
  split at hended
  · rename_i t ht
    obtain ⟨before, hinsts⟩ := List.getLast?_eq_some_iff.1 ht
    refine ⟨before, t, hinsts, hended, fun i hi => ?_⟩
    have hsorted := h.arranged.sorted b
    rw [hinsts] at hsorted
    exact ((List.pairwise_append.1 hsorted).2.2 i hi t (List.mem_singleton.2 rfl)).1
  · cases hended

/-- Only the terminator of a block leads somewhere. -/
theorem outs_eq_arms (hb : b ∈ f.layout) : f.outs b = f.arms b := by
  obtain ⟨before, t, hinsts, -, hbefore⟩ := h.ends hb
  have hnone : before.flatMap (fun i => (f.kind i).targets) = [] := by
    refine List.flatMap_eq_nil_iff.2 fun i hi => ?_
    have hterm := hbefore i hi
    cases hkind : f.kind i with
    | branch | jump =>
      rw [hkind] at hterm
      cases hterm
    | binary | gep | load | call | alloca | phi | ret | store | print => rfl
  unfold outs arms
  rw [hinsts, List.getLast?_concat, List.flatMap_append, hnone]
  exact List.append_nil _

theorem shaped : f.Shaped := by
  refine ⟨List.ne_nil_of_mem (h.mem_layout_iff.2 h.nonempty), fun b hb => h.ends hb,
    fun b _ before i after hinsts hphi j hj => ?_, fun b _ i hi hphi => ?_, fun b _ t _ => h.arranged.kept t,
    fun b _ p => ?_⟩
  · have hsorted := h.arranged.sorted b
    rw [hinsts] at hsorted
    exact ((List.pairwise_append.1 hsorted).2.2 j hj i List.mem_cons_self).2 hphi
  · obtain ⟨incoming, hslots⟩ := h.filled b i hi hphi
    rw [hslots, List.length_map]
  · rw [h.arranged.edges]
    split
    · rename_i hp
      rw [h.outs_eq_arms hp]
    · rename_i hp
      unfold outs instsOf
      rw [block_of_size_le (Nat.le_of_not_lt fun hlt => hp (h.mem_layout_iff.2 hlt))]
      rfl

/-- All instructions stand in blocks and all values are live. -/
theorem neat : f.Neat := by
  have hplaced : ∀ {i}, i < f.insts.size → f.blockOf? i ≠ none := fun hi => h.arranged.placed _ hi
  have hlast : ∀ {i}, ¬ i < f.insts.size → f.inst i = default := fun hi =>
    Edit.inst_of_size_le (Nat.le_of_not_lt hi)
  refine ⟨⟨h.sound, ⟨h.sound.indexed, h.sound.kind_of_result, fun i r hr => ?_, fun v hv => ?_, fun i hi => ?_,
    fun i hi hkind => ?_⟩, fun b hb => ?_⟩, fun i v _ => h.arranged.live v⟩
  · refine iff_of_true (h.arranged.live r) (hplaced ?_)
    by_contra hi
    rw [result?, hlast hi] at hr
    cases hr
  · rw [h.arranged.live v] at hv
    cases hv
  · have hge : ¬ i < f.insts.size := fun hlt => hplaced hlt hi
    rw [operands, hlast hge]
    rfl
  · refine h.arranged.valued i ?_ hkind
    by_contra hge
    rw [blockOf?, hlast hge] at hi
    exact hi rfl
  · rw [h.arranged.kept b] at hb
    cases hb

theorem agreeing : f.AgreeingPhis := by
  intro b _ i hi hphi p v v' hv hv'
  obtain ⟨incoming, hslots⟩ := h.filled b i hi hphi
  have hone : ∀ w, f.Feeds b i p w → w = incoming p := by
    intro w hw
    obtain ⟨k, hk⟩ := List.mem_iff_getElem?.1 hw
    obtain ⟨hp, hw⟩ := List.getElem?_zip_eq_some.1 hk
    rw [hslots, List.getElem?_map, hp] at hw
    exact (Option.some.inj hw).symm
  rw [hone v hv, hone v' hv']

end Finished

end Function

/-- When a body is opened, its phis are there without slots, and every block has its terminator. -/
theorem Reader.opened_openBody {r r' : Reading} {phis : List (BlockId × InstId × Statement)}
    (hs : (r.module.function source.id).Sound) (hblank : (r.module.function source.id).Blank)
    (hterm : ∀ b ∈ source.blocks, b.isTerminated = true ∧ b.Fits)
    (h : (openBody source).run r = .ok ((blocks, phis), r')) : (r'.module.function source.id).Opened phis ∧
      (r'.module.function source.id).blocks.size = source.blocks.length ∧
      ∀ b, b < source.blocks.length → Edit.isTerminated (r'.module.function source.id) b = true := by
  obtain ⟨r₂, r₃, r₄, found, hparams, hcreate, hphis, rfl, hready⟩ := openBody_eq_ok h
  -- before the phis are created there are blocks and nothing else
  have hmore := Function.moreValues_of_steps (builds_defineParams ⟨source.id, none⟩ _ _ hparams).steps
  have hs₂ := hmore.sound hs
  obtain ⟨hids, hsize₃, hinst₃⟩ := createBlocks_spec ⟨source.id, none⟩ hcreate
  have hs₃ := Function.BuildSteps.sound (builds_createBlocks ⟨source.id, none⟩ _ _ hcreate).steps hs₂
  rw [hmore.blocks_size, hblank.blocks, Nat.zero_add] at hsize₃
  have ho₃ : (r₃.module.function source.id).Opened [] := by
    refine ⟨List.nodup_nil, fun e he => absurd he List.not_mem_nil, fun i hi => ?_⟩
    unfold Function.kind at hi
    rw [hinst₃, hmore.inst, Edit.inst_of_size_le (hblank.insts ▸ Nat.zero_le i)] at hi
    cases hi
  obtain ⟨hs₄, ho₄, hsize₄⟩ := opened_createPhis hs₃ ho₃ hphis
  have hbuilt₅ := builds_buildReady source.id blocks _ _ (fun p hp => (hterm p.1 (List.of_mem_zip hp).1).2) hready
  obtain ⟨-, ho₅, hsize₅⟩ := Function.codeSteps_opened hbuilt₅.steps hs₄ ho₄
  refine ⟨ho₅, hsize₅.trans (hsize₄.trans hsize₃), fun b hb => ?_⟩
  have hpending : (source.blocks[b], b) ∈ source.blocks.zip (blocks.map (·.2)) := by
    rw [hids, hmore.blocks_size, hblank.blocks]
    refine List.mem_iff_getElem?.2 ⟨b, List.getElem?_zip_eq_some.2 ⟨List.getElem?_eq_getElem hb, ?_⟩⟩
    rw [List.map_nil, List.nil_append, List.getElem?_range' hb, Nat.zero_add, Nat.one_mul]
  exact (isTerminated_buildReady hs₄ (fun p hp => hterm _ (List.of_mem_zip hp).1) hready _ hpending).resolve_left
    List.not_mem_nil

/-- Reading a body finishes it. -/
theorem Reader.finished_buildFunction {r r' : Reading} (hs : (r.module.function source.id).Sound)
    (hblank : (r.module.function source.id).Blank) (hblocks : source.blocks ≠ [])
    (hterm : ∀ b ∈ source.blocks, b.isTerminated = true ∧ b.Fits) (h : (buildFunction source).run r = .ok ((), r')) :
    (r'.module.function source.id).Finished := by
  obtain ⟨hs', ha'⟩ := Function.BuildSteps.arranged (builds_buildFunction (fun b hb => (hterm b hb).2) h).steps
    hs hblank.arranged
  rw [buildFunction] at h
  obtain ⟨⟨blocks, phis⟩, r₁, hopen, hfill⟩ := bind_eq_ok h
  obtain ⟨ho, hsize, hended⟩ := opened_openBody hs hblank hterm hopen
  obtain ⟨hsame, -, hfilled⟩ := filled_forM ⟨source.id, none⟩ ho.nodup
    (fun e he => ⟨(ho.phi e he).2.1, (ho.phi e he).2.2.2⟩) hfill
  refine ⟨hs', ha', ?_, fun b hb => ?_, fun b i hi hphi => ?_⟩
  · rw [hsame.blocks_size, hsize]
    exact List.length_pos_of_ne_nil hblocks
  · rw [hsame.blocks_size, hsize] at hb
    rw [Function.isTerminated_congr (congrArg _ (congrArg BlockData.insts (hsame.block b))) fun j _ => hsame.kind j]
    exact hended b hb
  · rw [hsame.kind] at hphi
    obtain ⟨e, he, rfl⟩ := ho.all i hphi
    have hplace := (hs'.placed b _).1 hi
    rw [hsame.blockOf, (ho.phi e he).2.2.1] at hplace
    cases hplace
    exact hfilled e he

/-! ## Modules -/

/-- What reading a body starts from: the function is declared, and the body was collected from lines. -/
structure FunctionSource.Awaits (m : Module) (source : FunctionSource) : Prop where
  declared : source.Declared m
  nonempty : source.blocks ≠ []
  blocks : ∀ b ∈ source.blocks, b.isTerminated = true ∧ b.Fits

/-- The bodies of other functions are read later. -/
theorem FunctionSource.Awaits.of_built {m m' : Module} {source : FunctionSource} (h : source.Awaits m)
    (hbuilt : Module.Built Function.BuildStep id m m') (hid : source.id ≠ id) : source.Awaits m' := by
  refine ⟨⟨hbuilt.size ▸ h.declared.id_lt, ?_⟩, h.nonempty, h.blocks⟩
  rw [hbuilt.others source.id hid]
  exact h.declared.blank

/-- A function that is declared is blank until its body is read. -/
theorem FunctionSource.Declared.blank_function {m : Module} (h : source.Declared m) : (m.function source.id).Blank := by
  obtain ⟨name, returns, hnew⟩ := h.blank
  rw [hnew]
  exact Function.blank_new ..

/-- What building a body gives and what building other bodies leaves alone holds of all bodies of a text. -/
theorem Reader.each_forM {Q : FunctionSource → Module → Prop}
    (hbuild : ∀ source r r', r.module.Sound → r.module.Headed → source.Awaits r.module →
      (buildFunction source).run r = .ok ((), r') → Q source r'.module)
    (hkeep : ∀ (source : FunctionSource) (m m' : Module), m.MoreStrings m' → m'.function source.id = m.function source.id →
      Q source m → Q source m') : ∀ {r r' : Reading}, (sources.map (·.id)).Nodup → r.module.Sound → r.module.Headed →
      (∀ source ∈ sources, source.Awaits r.module) → (sources.forM buildFunction).run r = .ok (⟨⟩, r') →
      r.module.MoreStrings r'.module ∧
      (∀ id, id ∉ sources.map (·.id) → r'.module.function id = r.module.function id) ∧
      ∀ source ∈ sources, Q source r'.module := by
  induction sources with
  | nil =>
    intro r r' _ _ _ _ h
    cases h
    exact ⟨.refl _, fun _ _ => rfl, fun source hsource => absurd hsource List.not_mem_nil⟩
  | cons source rest ih =>
    intro r r' hnodup hs hh hawaits h
    obtain ⟨⟨⟩, r₁, hfirst, hrest⟩ := bind_eq_ok h
    obtain ⟨hnot, hnodup⟩ := List.nodup_cons.1 hnodup
    have hsource := hawaits source List.mem_cons_self
    have hbuilt := builds_buildFunction (fun b hb => (hsource.blocks b hb).2) hfirst
    have hgives := hbuild source r r₁ hs hh hsource hfirst
    obtain ⟨hstrings, hothers, hmore⟩ := ih hnodup (hbuilt.sound hs) (hbuilt.headed hh) (fun other hother =>
      (hawaits other (List.mem_cons_of_mem _ hother)).of_built hbuilt fun heq =>
        hnot (List.mem_map.2 ⟨other, hother, heq⟩)) hrest
    refine ⟨hbuilt.symbols.trans hstrings, fun id hid => ?_, fun other hother => ?_⟩
    · rw [List.map_cons, List.mem_cons, not_or] at hid
      exact (hothers id hid.2).trans (hbuilt.others id hid.1)
    · rcases List.mem_cons.1 hother with rfl | hother
      · exact hkeep _ _ _ hstrings (hothers _ hnot) hgives
      · exact hmore other hother

/-- The bodies of a text await that they are read. -/
theorem Source.awaits_declarations {lines : List TokenLine} {m : Module}
    (h : declarations {} lines = .ok (m, sources)) :
    (sources.map (·.id)).Nodup ∧ m.Sound ∧ m.Headed ∧ ∀ source ∈ sources, source.Awaits m := by
  have hsound : Module.Sound {} := fun id hid => absurd hid (Nat.not_lt_zero id)
  have hheaded : Module.Headed {} := fun _ => Function.headed_default
  obtain ⟨hids, -, -, hall⟩ := declared h
  refine ⟨by rw [hids]; exact List.nodup_range', sound_declarations hsound h, headed_declarations hheaded h,
    fun source hsource => ?_⟩
  obtain ⟨hdeclared, hcollected⟩ := hall source hsource
  obtain ⟨name, inner, closed, -, hbody⟩ := hcollected.body
  obtain ⟨-, hnonempty, hterm⟩ := body_eq_ok hbody
  exact ⟨hdeclared, hnonempty, fun b hb => ⟨hterm b hb, fits_body hbody b hb⟩⟩

/-- The functions of a module that was read are those of the bodies of the text. -/
theorem Module.exists_source_of_parse {m : Module} (h : Module.parse text = .ok m) {f : Function}
    (hf : f ∈ m.functions) : ∃ lines m₀ sources r, Source.tokenLines text = .ok lines ∧
      Source.declarations {} lines = .ok (m₀, sources) ∧
      (sources.forM Reader.buildFunction).run { module := m₀ } = .ok (⟨⟩, r) ∧ m = r.module ∧
      ∃ source ∈ sources, m.function source.id = f := by
  obtain ⟨lines, m₀, sources, hlines, hdecl, hkeep⟩ := built_of_parse h
  unfold Module.parse at h
  obtain ⟨_, hlines', h₁⟩ := Outcome.bind_eq_ok.1 h
  cases hlines.symm.trans hlines'
  obtain ⟨_, hdecl', h₂⟩ := Outcome.bind_eq_ok.1 h₁
  cases hdecl.symm.trans hdecl'
  obtain ⟨⟨_, r⟩, hbuild, h₃⟩ := Outcome.bind_eq_ok.1 h₂
  cases h₃
  refine ⟨lines, m₀, sources, r, hlines, hdecl, hbuild, rfl, ?_⟩
  obtain ⟨hids, hsize, -, -⟩ := Source.declared hdecl
  have hids' : sources.map (·.id) = List.range' 0 sources.length := hids
  have hsize' : r.module.functions.size = sources.length :=
    (hkeep (fun m => m.functions.size = m₀.functions.size) (fun _ _ _ hbuilt hm => hbuilt.size.trans hm) rfl).trans
      (hsize.trans (Nat.zero_add _))
  obtain ⟨id, hid, rfl⟩ := Array.mem_iff_getElem.1 hf
  obtain ⟨source, hsource, rfl⟩ : ∃ source ∈ sources, source.id = id := by
    refine List.mem_map.1 ?_
    rw [hids', ← hsize']
    simpa using hid
  refine ⟨source, hsource, ?_⟩
  unfold Module.function
  rw [Array.getD_eq_getD_getElem?, Array.getElem?_eq_getElem hid]
  rfl

/-- The functions of a module that was read are finished. -/
theorem Module.finished_parse {m : Module} (h : Module.parse text = .ok m) {f : Function} (hf : f ∈ m.functions) :
    f.Finished := by
  obtain ⟨lines, m₀, sources, r, -, hdecl, hbuild, rfl, source, hsource, rfl⟩ := exists_source_of_parse h hf
  obtain ⟨hnodup, hs, hh, hawaits⟩ := Source.awaits_declarations hdecl
  obtain ⟨-, -, hfinished⟩ := Reader.each_forM (r := { module := m₀ })
    (Q := fun source m => (m.function source.id).Finished)
    (fun _ _ _ hs _ h => Reader.finished_buildFunction (hs _ h.declared.id_lt) h.declared.blank_function h.nonempty
      h.blocks) (fun _ _ _ _ hfunction h => hfunction.symm ▸ h) hnodup hs hh hawaits hbuild
  exact hfinished source hsource

/-- A finished function is accepted iff no terminator leads to its first block. Otherwise it is reported for that. -/
theorem Function.Finished.verify_iff {f : Function} (h : f.Finished) {entry : BlockId}
    (hentry : f.layout.head? = some entry) :
    (f.verify = .ok () ↔ ∀ b ∈ f.layout, ∀ i ∈ f.instsOf b, (f.kind i).isTerminator = true →
      entry ∉ (f.kind i).targets) ∧
    (f.verify ≠ .ok () →
      f.verify = .error (.error (.invariant f.name (.entryHasPredecessors (f.blockName entry))))) := by
  have hshaped := h.shaped
  have hmem : entry ∈ f.layout := List.mem_of_mem_head? hentry
  have hverify := hshaped.verify_eq h.sound h.neat.closed hentry
  have hpreds : (f.preds entry).isEmpty = true ↔ ∀ b ∈ f.layout, entry ∉ f.arms b := by
    rw [List.isEmpty_iff, List.eq_nil_iff_forall_not_mem]
    refine forall_congr' fun p => ?_
    rw [← List.count_pos_iff, hshaped.preds entry hmem p]
    split
    · rename_i hp
      rw [List.count_pos_iff]
      exact ⟨fun hnot _ => hnot, fun hnot => hnot hp⟩
    · rename_i hp
      exact ⟨fun _ hin => absurd hin hp, fun _ => Nat.lt_irrefl 0⟩
  have harms : (∀ b ∈ f.layout, entry ∉ f.arms b) ↔ ∀ b ∈ f.layout, ∀ i ∈ f.instsOf b,
      (f.kind i).isTerminator = true → entry ∉ (f.kind i).targets := by
    refine forall₂_congr fun b hb => ?_
    rw [hshaped.mem_arms_iff hb]
    push Not
    rfl
  rw [← harms, ← hpreds, hverify]
  split
  · rename_i hempty
    exact ⟨⟨fun _ => hempty, fun _ => rfl⟩, fun hne => absurd rfl hne⟩
  · rename_i hempty
    exact ⟨⟨fun hok => absurd hok (by simp), fun hnil => absurd hnil hempty⟩, fun _ => rfl⟩

/-- A module that was read verifies but for entries with predecessors: a function of it is accepted iff no terminator
leads to its first block, and the other ones are reported for that. The predecessor lists have one entry per edge, and
phis have one slot per predecessor, the same for a predecessor that is repeated. -/
theorem Module.verify_parse {text : String} {m : Module} (h : Module.parse text = .ok m) {f : Function}
    (hf : f ∈ m.functions) : ∃ entry, f.layout.head? = some entry ∧
      (f.verify = .ok () ↔ ∀ b ∈ f.layout, ∀ i ∈ f.instsOf b, (f.kind i).isTerminator = true →
        entry ∉ (f.kind i).targets) ∧
      (f.verify ≠ .ok () →
        f.verify = .error (.error (.invariant f.name (.entryHasPredecessors (f.blockName entry))))) ∧
      (∀ b ∈ f.layout, ∃ sources, f.edgeSources b = .ok sources ∧ (f.preds b).Perm sources) ∧
      (∀ b ∈ f.layout, ∀ i ∈ f.instsOf b, (f.kind i).isPhi = true → (f.operands i).length = (f.preds b).length) ∧
      f.AgreeingPhis := by
  have hfinished := finished_parse h hf
  have hshaped := hfinished.shaped
  obtain ⟨entry, hentry⟩ := Option.isSome_iff_exists.1 (List.isSome_head?.2 hshaped.nonempty)
  obtain ⟨haccepted, hreported⟩ := hfinished.verify_iff hentry
  exact ⟨entry, hentry, haccepted, hreported,
    fun b hb => ⟨_, hshaped.edgeSources_eq b, hshaped.preds_perm hfinished.sound hb⟩, hshaped.slots, hfinished.agreeing⟩

/-- A branch with equal arms to a block with a phi that leads back to the entry. -/
def backToEntry : Function where
  name := "f"
  returnsValue := false
  values := #[
    { kind := .inst 0, name := some "p" },
    { kind := .const 1, uses := [⟨1, 0⟩] },
    { kind := .const 7, uses := [⟨0, 0⟩, ⟨0, 1⟩] }]
  insts := #[
    { kind := .phi, operands := [2, 2], result := some 0, block := some 1 },
    { kind := .branch 1 1, operands := [1], result := none, block := some 0 },
    { kind := .jump 0, operands := [], result := none, block := some 1 }]
  blocks := #[{ name := "entry", insts := [1], preds := [1] }, { name := "next", insts := [0, 2], preds := [0, 0] }]
  layout := [0, 1]

theorem Module.verify_parse_backToEntry :
    backToEntry.verify = .error (.error (.invariant "f" (.entryHasPredecessors "entry"))) := by
  have hread : Module.parse ("func @f() -> void \x7b\nentry:\n br 1, ^next, ^next\n" ++
      "next:\n %p = phi [^entry, 7]\n jump ^entry\n\x7d") = .ok { functions := #[backToEntry] } := by cbv
  obtain ⟨entry, hentry, haccepted, hreported, -⟩ := Module.verify_parse hread (Array.mem_singleton.2 rfl)
  cases hentry
  refine hreported fun hok => ?_
  exact haccepted.1 hok 1 (by decide) 2 (by decide) rfl (by decide)

end SsaCompiler
