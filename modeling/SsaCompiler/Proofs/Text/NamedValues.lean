import SsaCompiler.Proofs.Text.SeparateFunctions

/-!
# Names of values

While a body is built, the table of names tells the names of the values exactly (`Reading.Labelled`): a name is in the
table with a value if and only if the value has that name in the function. Operations name nothing, and what they give
has no name yet. Whatever stands in a function that is being built stays: blocks keep their names, instructions their
results, and values the names that they have.
-/

set_option autoImplicit false

namespace SsaCompiler

open Edits Stateful

/-! ## What stays while a body is built -/

variable {i : InstId} {blocks : List (String × BlockId)} {name : String}

variable {block : BlockId} {hasResult : Bool} {phi : InstId} {line : Nat} {γ : Type}

namespace Function

variable {f f' f'' : Function}

/-- Blocks keep their names, and instructions keep their results. -/
structure Prolongs (f f' : Function) : Prop where
  blocks_le : f.blocks.size ≤ f'.blocks.size
  blockName : ∀ b, b < f.blocks.size → f'.blockName b = f.blockName b
  insts_le : f.insts.size ≤ f'.insts.size
  result : ∀ i, i < f.insts.size → f'.result? i = f.result? i

theorem Prolongs.refl (f : Function) : f.Prolongs f := ⟨Nat.le_refl _, fun _ _ => rfl, Nat.le_refl _, fun _ _ => rfl⟩

theorem Prolongs.trans (h : f.Prolongs f') (h' : f'.Prolongs f'') : f.Prolongs f'' where
  blocks_le := h.blocks_le.trans h'.blocks_le
  blockName b hb := (h'.blockName b (Nat.lt_of_lt_of_le hb h.blocks_le)).trans (h.blockName b hb)
  insts_le := h.insts_le.trans h'.insts_le
  result i hi := (h'.result i (Nat.lt_of_lt_of_le hi h.insts_le)).trans (h.result i hi)

variable {b : BlockId}

/-- Placing an instruction. -/
theorem prolongs_place {pos : Nat} (h : (Edit.place b pos i).run f = (.ok (), f')) :
    f.Prolongs f' ∧ ∀ j, f'.result? j = f.result? j := by
  obtain ⟨-, -, -, hsize, hbecomes, -⟩ := Edit.place_spec h
  have hresult : ∀ j, f'.result? j = f.result? j := by
    intro j
    unfold result?
    rw [hbecomes.inst]
    exact Function.proj_update (by rfl) _
  refine ⟨⟨Nat.le_of_eq hbecomes.blocks_size.symm, fun c _ => ?_, Nat.le_of_eq hsize.symm, fun j _ => hresult j⟩, hresult⟩
  unfold blockName
  rw [hbecomes.block]
  exact Function.proj_update (by rfl) _

theorem prolongs_createInst {kind : InstKind} {operands : List ValueId}
    (h : (Edit.createInst kind operands hasResult).run f = (.ok i, f')) : f.Prolongs f' := by
  obtain ⟨rfl, hcreated⟩ := Edit.created_createInst h
  refine ⟨Nat.le_of_eq hcreated.blocks_size.symm, fun b _ => congrArg BlockData.name (hcreated.block b),
    hcreated.insts_size ▸ Nat.le_succ _, fun i hi => ?_⟩
  unfold result?
  rw [hcreated.inst, Function.update_of_ne (Nat.ne_of_lt hi)]

theorem prolongs_addPreds {targets : List BlockId} : ∀ {f f' : Function},
    (targets.forM fun t => Edit.addPred t b).run f = (.ok (), f') → f.Prolongs f' := by
  induction targets with
  | nil =>
    intro f f' h
    cases h
    exact .refl f
  | cons t rest ih =>
    intro f f' h
    obtain ⟨⟨⟩, f₁, hfirst, hrest⟩ := bind_eq_ok h
    obtain ⟨-, hsize, hbecomes, -⟩ := Edit.addPred_spec hfirst
    refine Prolongs.trans ⟨Nat.le_of_eq hbecomes.blocks_size.symm, fun c _ => ?_, Nat.le_of_eq hsize.symm,
      fun i _ => congrArg InstData.result (hbecomes.inst i)⟩ (ih hrest)
    unfold blockName
    rw [hbecomes.block]
    exact Function.proj_update (by rfl) _

theorem BuildStep.prolongs (h : f.BuildStep f') : f.Prolongs f' := by
  cases h with
  | code h =>
    cases h with
    | values h =>
      exact ⟨Nat.le_of_eq h.blocks_size.symm, fun b _ => congrArg BlockData.name (h.block b),
        Nat.le_of_eq h.insts_size.symm, fun i _ => congrArg InstData.result (h.inst i)⟩
    | append _ _ _ _ hcreate hpush hedges =>
      obtain ⟨-, -, hplace⟩ := Edit.place_of_pushBack hpush
      exact (prolongs_createInst hcreate).trans ((prolongs_place hplace).1.trans (prolongs_addPreds hedges))
  | block h =>
    obtain ⟨-, rfl⟩ := Edit.createBlock_spec h
    refine ⟨by rw [Array.size_push]; exact Nat.le_succ _, fun b hb => ?_, Nat.le_refl _, fun _ _ => rfl⟩
    unfold Function.blockName Function.block
    rw [Array.getD_eq_getD_getElem?, Array.getElem?_push, if_neg (Nat.ne_of_lt hb), Array.getD_eq_getD_getElem?]
  | phi hcreate hinsert =>
    exact (prolongs_createInst hcreate).trans (prolongs_place (Edit.place_of_insertPhi hinsert).2).1
  | slot _ hpush =>
    obtain ⟨-, -, hresult, hsize, hblock, hblocks, -⟩ := pushOperand_same hpush
    exact ⟨Nat.le_of_eq hblocks.symm, fun b _ => congrArg BlockData.name (hblock b), Nat.le_of_eq hsize.symm,
      fun i _ => hresult i⟩

theorem BuildSteps.prolongs (h : f.BuildSteps f') : f.Prolongs f' := by
  induction h with
  | refl => exact .refl f
  | tail _ hstep ih => exact ih.trans hstep.prolongs

end Function

/-! ## The table of names -/

/-- The table of names tells the names of the values of a function. -/
def Reading.Labelled (id : FuncId) (r : Reading) : Prop :=
  ∀ name v, r.values.lookup name = some v ↔ ((r.module.function id).value v).name = some name

/-- The table is kept in order, and no value loses its name. -/
def Reading.Labels (id : FuncId) (r r' : Reading) : Prop :=
  r.Labelled id → r'.Labelled id ∧ ∀ name v, ((r.module.function id).value v).name = some name →
    ((r'.module.function id).value v).name = some name

namespace Reading

variable {id : FuncId} {r r' r'' : Reading}

theorem Labels.refl (r : Reading) : r.Labels id r := fun h => ⟨h, fun _ _ hv => hv⟩

theorem Labels.trans (h : r.Labels id r') (h' : r'.Labels id r'') : r.Labels id r'' := fun hr =>
  ⟨(h' (h hr).1).1, fun name v hv => (h' (h hr).1).2 name v ((h hr).2 name v hv)⟩

/-- A value that has a name is one of the function. -/
theorem Labelled.lt (h : r.Labelled id) {v : ValueId} (hv : r.values.lookup name = some v) :
    v < (r.module.function id).values.size := by
  by_contra hge
  have hname := (h name v).1 hv
  rw [Function.value_of_size_le (Nat.le_of_not_lt hge)] at hname
  cases hname

/-- Nothing is named. -/
theorem Labelled.of_same (h : r.Labelled id) (hvalues : r'.values = r.values)
    (hnames : ∀ v, ((r'.module.function id).value v).name = ((r.module.function id).value v).name) : r'.Labelled id := by
  intro name v
  rw [hvalues, hnames]
  exact h name v

end Reading

namespace Reader

variable {b : Builder} {id : FuncId} {α β : Type} {r r' : Reading}

variable {act : Reader α}

/-- What an action leaves that keeps the names and the table. -/
theorem kept_of_separate {a : α} (h : ∀ marks table, Separate (Reading.Held id marks table) id act)
    (hrun : act.run r = .ok (a, r')) :
    r'.values = r.values ∧ ∀ v, ((r'.module.function id).value v).name = ((r.module.function id).value v).name := by
  have hheld := (h _ _).keeps r r' a hrun ⟨rfl, fun _ => rfl⟩
  exact ⟨hheld.1, fun v => congrArg Prod.snd (hheld.2 v)⟩

theorem labels_of_separate {a : α} (h : ∀ marks table, Separate (Reading.Held id marks table) id act)
    (hrun : act.run r = .ok (a, r')) : r.Labels id r' := by
  obtain ⟨hvalues, hnames⟩ := kept_of_separate h hrun
  exact fun hr => ⟨hr.of_same hvalues hnames, fun name v hv => (hnames v).trans hv⟩

/-- Naming a value that has no name. -/
theorem labels_define {v : ValueId} (hnew : ((r.module.function b.func).value v).name = none)
    (h : (define b line name v).run r = .ok ((), r')) :
    r.Labels b.func r' ∧ ((r'.module.function b.func).value v).name = some name ∧
      ∀ w, w ≠ v → ((r'.module.function b.func).value w).name = ((r.module.function b.func).value w).name := by
  obtain ⟨⟨⟩, r₁, hchange, h₁⟩ := bind_eq_ok h
  obtain ⟨m₁, hedit, rfl⟩ := change_eq_ok hchange
  obtain ⟨f₁, he, -, -, hat⟩ := ModuleEdit.editFunction_eq_ok hedit
  obtain ⟨hv, rfl⟩ := Edit.modifyValue_eq_ok he
  have hvalue := fun w => Function.value_modify (f := r.module.function b.func) hv
    (fun d => { d with name := some name }) w
  have h₂ := Stateful.of_get_bind h₁
  split at h₂
  · obtain ⟨_, _, hfault, -⟩ := bind_eq_ok h₂
    cases hfault
  rename_i hfree
  have hnone : r.values.lookup name = none := by
    cases hlookup : r.values.lookup name with
    | none => rfl
    | some w => exact absurd (by rw [hlookup]; rfl) hfree
  cases h₂
  have hnamed : ((m₁.function b.func).value v).name = some name := by rw [hat, hvalue, if_pos rfl]
  have hothers : ∀ w, w ≠ v → ((m₁.function b.func).value w).name = ((r.module.function b.func).value w).name :=
    fun w hw => by rw [hat, hvalue, if_neg hw]
  refine ⟨fun hr => ⟨fun other w => ?_, fun other w hw => ?_⟩, hnamed, hothers⟩
  · change ((name, v) :: r.values).lookup other = some w ↔ ((m₁.function b.func).value w).name = some other
    rw [List.lookup_cons]
    by_cases hw : w = v
    · rw [hw, hnamed]
      cases hother : other == name with
      | true => exact iff_of_true rfl (congrArg some (beq_iff_eq.1 hother).symm)
      | false =>
        refine iff_of_false (fun hin => ?_) fun heq => ?_
        · rw [(hr other v).1 hin] at hnew
          cases hnew
        · cases heq
          rw [beq_self_eq_true] at hother
          cases hother
    · rw [hothers w hw, ← hr other w]
      cases hother : other == name with
      | true =>
        rw [beq_iff_eq.1 hother, hnone]
        exact iff_of_false (fun heq => hw (Option.some.inj heq).symm) nofun
      | false => rfl
  · refine (hothers w fun heq => ?_).trans hw
    rw [heq, hnew] at hw
    cases hw

/-! ## Operations give values without names -/

/-- What an action gives has no name before. -/
def Unnamed (id : FuncId) (act : Reader (Option ValueId)) : Prop :=
  ∀ r r' v, act.run r = .ok (some v, r') → ((r.module.function id).value v).name = none

theorem Unnamed.bind {first : Reader α} {next : α → Reader (Option ValueId)}
    (h : ∀ marks table, Separate (Reading.Held id marks table) id first) (hnext : ∀ a, Unnamed id (next a)) :
    Unnamed id (first >>= next) := by
  intro r r' v hrun
  obtain ⟨a, r₁, hfirst, hrest⟩ := bind_eq_ok hrun
  rw [← (kept_of_separate h hfirst).2]
  exact hnext a r₁ r' v hrest

theorem Unnamed.discard : Unnamed id (act >>= fun _ => pure none) := by
  intro r r' v hrun
  obtain ⟨a, r₁, -, hpure⟩ := bind_eq_ok hrun
  cases hpure

theorem Unnamed.get_bind {next : Reading → Reader (Option ValueId)} (h : ∀ r, Unnamed id (next r)) :
    Unnamed id (get >>= next) := fun r r' v hrun => h r r r' v hrun

theorem Unnamed.fault (line : Nat) (f : TextFault) : Unnamed id (Reader.fault line f) := fun _ _ _ hrun => nomatch hrun

/-- A change of the module that gives a value which had no name. -/
theorem Unnamed.change {edit : ModuleEdit (Option ValueId)}
    (h : ∀ m m' v, edit.run m = (.ok (some v), m') → ((m.function id).value v).name = none) : Unnamed id (change edit) := by
  intro r r' v hrun
  obtain ⟨m', hedit, -⟩ := change_eq_ok hrun
  exact h r.module m' v hedit

end Reader

namespace Builder

variable (b : Builder) {m m' : Module} {kind : InstKind} {operands : List ValueId} {v : ValueId}

/-- The result of a new instruction is a new value. -/
theorem unnamed_emitResult (h : (b.emitResult kind operands hasResult).run m = (.ok (some v), m')) :
    ((m.function b.func).value v).name = none := by
  obtain ⟨i, m₁, hemit, h₁⟩ := bind_eq_ok h
  have hpure := of_get_bind h₁
  obtain ⟨c, f₁, -, hcreate, hpush⟩ := b.emit_eq_ok hemit
  obtain ⟨rfl, hcreated⟩ := Edit.created_createInst hcreate
  have hresult := (Function.prolongs_place (Edit.place_of_pushBack hpush).2.2).2 (m.function b.func).insts.size
  have hsome : (m₁.function b.func).result? (m.function b.func).insts.size = some v :=
    Except.ok.inj (congrArg Prod.fst hpure)
  have hnew : f₁.result? (m.function b.func).insts.size =
      if hasResult then some (m.function b.func).values.size else none := by
    unfold Function.result?
    rw [hcreated.inst, Function.update_self]
  rw [hresult, hnew] at hsome
  split at hsome
  · cases hsome
    rw [Function.value_of_size_le (Nat.le_refl _)]
    rfl
  · cases hsome

theorem unnamed_emitValue (h : (b.emitValue kind operands).run m = (.ok v, m')) :
    ((m.function b.func).value v).name = none := by
  obtain ⟨result, m₁, hresult, h₁⟩ := bind_eq_ok h
  split at h₁
  · cases h₁
    exact b.unnamed_emitResult hresult
  · cases h₁

theorem unnamed_call {callee : FuncId} (h : (b.call callee operands).run m = (.ok (some v), m')) :
    ((m.function b.func).value v).name = none := by
  have h₀ := of_get_bind h
  obtain ⟨⟨⟩, m₁, hadd, h₁⟩ := bind_eq_ok h₀
  obtain ⟨f₁, he, -, -, hat⟩ := ModuleEdit.editFunction_eq_ok hadd
  cases he
  have hnew := b.unnamed_emitResult h₁
  rw [hat] at hnew
  exact hnew

theorem unnamed_emptyPhi (h : (b.emptyPhi block).run m = (.ok (phi, v), m')) :
    ((m.function b.func).value v).name = none ∧ (m'.function b.func).result? phi = some v := by
  unfold emptyPhi Builder.edit at h
  obtain ⟨f', he, -, -, rfl⟩ := ModuleEdit.editFunction_eq_ok h
  obtain ⟨i, f₁, hcreate, h₁⟩ := bind_eq_ok he
  obtain ⟨_, f₂, hinsert, h₂⟩ := bind_eq_ok h₁
  obtain ⟨w, hresult, hpure⟩ := Edit.ask_bind_eq_ok h₂
  cases hpure
  obtain ⟨rfl, hcreated⟩ := Edit.created_createInst hcreate
  have hplaced := (Function.prolongs_place (Edit.place_of_insertPhi hinsert).2).2 (m.function b.func).insts.size
  have hnew : f₁.result? (m.function b.func).insts.size = some (m.function b.func).values.size := by
    unfold Function.result?
    rw [hcreated.inst, Function.update_self]
    rfl
  rw [hnew] at hplaced
  unfold Function.resultOf at hresult
  rw [hplaced] at hresult
  cases hresult
  refine ⟨?_, hplaced⟩
  rw [Function.value_of_size_le (Nat.le_refl _)]
  rfl

end Builder

namespace Reader

variable (b : Builder) {id : FuncId} {r r' : Reading}

theorem unnamed_emitted (kind : InstKind) (operands : List ValueId) :
    Unnamed b.func (some <$> change (b.emitValue kind operands)) := by
  intro r r' v hrun
  obtain ⟨w, r₁, hchange, hpure⟩ := bind_eq_ok (map_eq_pure_bind (m := Reader) some _ ▸ hrun)
  cases hpure
  obtain ⟨m', hedit, -⟩ := change_eq_ok hchange
  exact b.unnamed_emitValue hedit

theorem unnamed_buildOp (blocks : List (String × BlockId)) (line : Nat) (named : Bool) (op : SourceOp) :
    Unnamed b.func (buildOp b blocks line named op) := by
  have hvalue : ∀ operand marks table, Separate (Reading.Held b.func marks table) b.func (value b line operand) :=
    fun operand _ _ => separate_value b line operand
  have hvalues : ∀ (args : List SourceOperand) marks table,
      Separate (Reading.Held b.func marks table) b.func (args.mapM (value b line)) :=
    fun args _ _ => .mapM (separate_value b line) args
  have hblock : ∀ name marks table, Separate (Reading.Held b.func marks table) b.func (blockNamed blocks line name) :=
    fun name _ _ => separate_blockNamed blocks line name
  cases op with
  | binary op l r => exact .bind (hvalue l) fun l => .bind (hvalue r) fun r => unnamed_emitted b _ _
  | alloca words => exact unnamed_emitted b _ _
  | load base index => exact .bind (hvalue base) fun base => .bind (hvalue index) fun index => unnamed_emitted b _ _
  | store base index data =>
    exact .bind (hvalue base) fun base => .bind (hvalue index) fun index => .bind (hvalue data) fun data => .discard
  | gep base index multiplier =>
    exact .bind (hvalue base) fun base => .bind (hvalue index) fun index => unnamed_emitted b _ _
  | call callee args =>
    refine .bind (hvalues args) fun values => .get_bind fun r => ?_
    dsimp only
    split
    · exact .bind (fun _ _ => separate_callCheck ..) fun _ => .change fun _ _ _ h => b.unnamed_emitResult h
    · split
      · exact .bind (fun _ _ => separate_callCheck ..) fun _ => .change fun _ _ _ h => b.unnamed_call h
      · exact .fault _ _
  | print format args => exact .bind (hvalues args) fun values => .discard
  | jump target => exact .bind (hblock target) fun target => .discard
  | branch cond thenBlock elseBlock =>
    exact .bind (hvalue cond) fun cond => .bind (hblock thenBlock) fun thenBlock => .bind (hblock elseBlock) fun elseBlock =>
      .discard
  | ret given =>
    refine .get_bind fun r => ?_
    dsimp only
    split
    · exact .bind (fun _ _ => (separate_value b line _).map _) fun v => .discard
    · exact .bind (fun _ _ => .pure _) fun v => .discard
    · exact .bind (fun _ _ => .fault _ _) fun v => .discard
    · exact .bind (fun _ _ => .fault _ _) fun v => .discard
  | phi pairs => exact fun _ _ _ hrun => by cases hrun

/-! ## Bodies that are opened -/

variable {s : Statement}

theorem labels_buildStatement (h : (buildStatement b blocks s).run r = .ok ((), r')) : r.Labels b.func r' := by
  obtain ⟨result, r₁, hop, hdefine⟩ := bind_eq_ok h
  have hseparate : ∀ marks table, Separate (Reading.Held b.func marks table) b.func
      (buildOp b blocks s.line s.result.isSome s.op) := fun _ _ => separate_buildOp b blocks _ _ _
  have hlabels := labels_of_separate hseparate hop
  split at hdefine
  · rename_i name v _
    have hnew := unnamed_buildOp b blocks _ _ _ r r₁ v hop
    rw [← (kept_of_separate hseparate hop).2] at hnew
    exact hlabels.trans (labels_define hnew hdefine).1
  · cases hdefine
    exact hlabels

theorem labels_forM {act : γ → Reader PUnit} (hact : ∀ c r r', (act c).run r = .ok (⟨⟩, r') → r.Labels id r')
    {list : List γ} : ∀ {r r' : Reading}, (list.forM act).run r = .ok (⟨⟩, r') → r.Labels id r' := by
  induction list with
  | nil =>
    intro r r' h
    cases h
    exact .refl r
  | cons c rest ih =>
    intro r r' h
    obtain ⟨⟨⟩, r₁, hfirst, hrest⟩ := bind_eq_ok h
    exact (hact c r r₁ hfirst).trans (ih hrest)

theorem labels_buildReady {limit : Nat} : ∀ {pending left : List (BlockSource × BlockId)} {r r' : Reading},
      (buildReady id blocks limit pending).run r = .ok (left, r') → r.Labels id r' := by
  induction limit with
  | zero =>
    intro pending left r r' h
    cases h
    exact .refl r
  | succ limit ih =>
    intro pending left r r' h
    have h₁ := Stateful.of_get_bind h
    dsimp only at h₁
    split at h₁
    · cases h₁
      exact .refl r
    · split at h₁
      · cases h₁
        exact .refl r
      · rename_i source c _
        obtain ⟨⟨⟩, r₂, hbody, hrest⟩ := bind_eq_ok h₁
        exact (labels_forM (fun s r r' hrun => labels_buildStatement ⟨id, some c⟩ hrun) hbody).trans (ih hrest)

/-- Naming parameters, of which those before the first one that is named here have their names. -/
theorem labels_defineParams {names : List String} : ∀ (first : Nat) {r r' : Reading},
    (∀ (i : Nat) (v : ValueId), (r.module.function b.func).params[i]? = some v → v = i) →
    (∀ v, first ≤ v → ((r.module.function b.func).value v).name = none) → ((names.zipIdx first).forM fun (name, i) => do
      let v ← change (b.param i)
      define b line name v).run r = .ok (⟨⟩, r') → r.Labels b.func r' := by
  induction names with
  | nil =>
    intro first r r' _ _ h
    cases h
    exact .refl r
  | cons name rest ih =>
    intro first r r' hparams hnew h
    rw [List.zipIdx_cons] at h
    obtain ⟨⟨⟩, r₁, hfirst, hrest⟩ := bind_eq_ok h
    obtain ⟨v, r₂, hparam, hdefine⟩ := bind_eq_ok hfirst
    obtain ⟨m', hedit, rfl⟩ := change_eq_ok hparam
    have h₁ := Edits.of_get_bind hedit
    split at h₁
    · rename_i w hw
      cases h₁
      have hv := hparams first v hw
      obtain ⟨hlabels, -, hothers⟩ := labels_define (hnew v (Nat.le_of_eq hv.symm)) hdefine
      refine hlabels.trans (ih (first + 1) (fun i w hi => hparams i w ?_) (fun w hle => ?_) hrest)
      · have hheading := (Function.moreValues_of_steps (builds_define b _ _ _ hdefine).steps).heading
        rwa [show (r₁.module.function b.func).params = _ from congrArg Heading.params hheading] at hi
      · rw [hothers w (by rw [hv]; exact Nat.ne_of_gt hle)]
        exact hnew w (Nat.le_of_succ_le hle)
    · cases h₁

/-- Creating blocks: the table has their names, and each block has its name. -/
theorem named_createBlocks {sources : List BlockSource} :
    ∀ (created : List (String × BlockId)) {blocks : List (String × BlockId)} {r r' : Reading},
    (∀ e ∈ created, e.2 < (r.module.function b.func).blocks.size ∧ (r.module.function b.func).blockName e.2 = e.1) →
    (createBlocks b sources created).run r = .ok (blocks, r') →
      r.Labels b.func r' ∧ blocks.map Prod.fst = created.map Prod.fst ++ sources.map (·.name) ∧
      ∀ e ∈ blocks, e.2 < (r'.module.function b.func).blocks.size ∧
        (r'.module.function b.func).blockName e.2 = e.1 := by
  induction sources with
  | nil =>
    intro created blocks r r' hnamed h
    cases h
    exact ⟨.refl r, (List.append_nil _).symm, hnamed⟩
  | cons source rest ih =>
    intro created blocks r r' hnamed h
    unfold createBlocks at h
    split at h
    · obtain ⟨_, _, hfault, -⟩ := bind_eq_ok h
      cases hfault
    · obtain ⟨c, r₁, hchange, hrest⟩ := bind_eq_ok h
      obtain ⟨m₁, hedit, rfl⟩ := change_eq_ok hchange
      have hbuilt : Module.Built Function.BuildStep b.func r.module m₁ :=
        ModuleEdit.Builds.of_edit (fun f f' _ h => .block h) (fun _ _ => Edit.brings_createBlock _) hedit
      obtain ⟨f₁, he, -, -, hat⟩ := ModuleEdit.editFunction_eq_ok hedit
      obtain ⟨hc, hf₁⟩ := Edit.createBlock_spec he
      have hlabels : r.Labels b.func { r with module := m₁ } := by
        have hvalue : ∀ v, (m₁.function b.func).value v = (r.module.function b.func).value v := fun v => by
          rw [hat, hf₁]
          rfl
        exact fun hr => ⟨hr.of_same rfl fun v => congrArg ValueData.name (hvalue v),
          fun name v hv => (congrArg ValueData.name (hvalue v)).trans hv⟩
      have hnew : c < (m₁.function b.func).blocks.size ∧ (m₁.function b.func).blockName c = source.name := by
        rw [hat, hf₁, hc]
        refine ⟨by rw [Array.size_push]; exact Nat.lt_succ_self _, ?_⟩
        unfold Function.blockName
        rw [Function.block_push, Function.update_self]
      have hold := Function.BuildSteps.prolongs hbuilt.steps
      have hnamed₁ : ∀ e ∈ created ++ [(source.name, c)], e.2 < (m₁.function b.func).blocks.size ∧
          (m₁.function b.func).blockName e.2 = e.1 := by
        intro e he
        rcases List.mem_append.1 he with he | he
        · obtain ⟨hlt, hname⟩ := hnamed e he
          exact ⟨Nat.lt_of_lt_of_le hlt hold.blocks_le, (hold.blockName e.2 hlt).trans hname⟩
        · cases List.mem_singleton.1 he
          exact hnew
      obtain ⟨hlabels', hnames, hnamed'⟩ := ih _ hnamed₁ hrest
      rw [List.map_append, List.append_assoc] at hnames
      exact ⟨hlabels.trans hlabels', hnames, hnamed'⟩

theorem labels_createPhi (h : (createPhi b block s).run r = .ok (phi, r')) : r.Labels b.func r' ∧
      ∀ name, s.result = some name → ∃ v, (r'.module.function b.func).result? phi = some v ∧
        ((r'.module.function b.func).value v).name = some name := by
  obtain ⟨⟨i, v⟩, r₁, hchange, h₁⟩ := bind_eq_ok h
  have hseparate : ∀ marks table, Separate (Reading.Held b.func marks table) b.func (change (b.emptyPhi block)) :=
    fun _ _ => separate_change (b.separate_emptyPhi block)
  have hlabels := labels_of_separate hseparate hchange
  have hnames := (kept_of_separate hseparate hchange).2
  obtain ⟨m₁, hedit, rfl⟩ := change_eq_ok hchange
  obtain ⟨hnew, hresult⟩ := b.unnamed_emptyPhi hedit
  dsimp only at h₁
  split at h₁
  · rename_i name hname
    obtain ⟨⟨⟩, r₂, hdefine, hpure⟩ := bind_eq_ok h₁
    cases hpure
    obtain ⟨hlabels', hnamed, -⟩ := labels_define ((hnames v).trans hnew) hdefine
    refine ⟨hlabels.trans hlabels', fun other hother => ⟨v, ?_, ?_⟩⟩
    · have hmore := Function.moreValues_of_steps (builds_define b _ _ _ hdefine).steps
      exact (congrArg InstData.result (hmore.inst _)).trans hresult
    · rw [hnamed, ← hother, hname]
  · rename_i hname
    cases h₁
    exact ⟨hlabels, fun other hother => by rw [hname] at hother; cases hother⟩

end Reader

/-! ## What is there when a body is opened -/

/-- A state that comes later while the function is built. -/
structure Reading.Continues (id : FuncId) (r r' : Reading) : Prop where
  labelled : r'.Labelled id
  name : ∀ name v, ((r.module.function id).value v).name = some name →
    ((r'.module.function id).value v).name = some name
  prolongs : (r.module.function id).Prolongs (r'.module.function id)

namespace Reading

variable {id : FuncId} {r r' r'' : Reading}

theorem Continues.refl (h : r.Labelled id) : r.Continues id r := ⟨h, fun _ _ hv => hv, .refl _⟩

theorem Continues.trans (h : r.Continues id r') (h' : r'.Continues id r'') : r.Continues id r'' :=
  ⟨h'.labelled, fun name v hv => h'.name name v (h.name name v hv), h.prolongs.trans h'.prolongs⟩

theorem Labels.continues (h : r.Labels id r') (hr : r.Labelled id)
    (hbuilt : Module.Built Function.BuildStep id r.module r'.module) : r.Continues id r' :=
  ⟨(h hr).1, (h hr).2, Function.BuildSteps.prolongs hbuilt.steps⟩

/-- The result of an instruction keeps its name. -/
theorem Continues.result (h : r.Continues id r')
    (hname : ∃ v, (r.module.function id).result? i = some v ∧ ((r.module.function id).value v).name = some name) :
    ∃ v, (r'.module.function id).result? i = some v ∧ ((r'.module.function id).value v).name = some name := by
  obtain ⟨v, hresult, hv⟩ := hname
  refine ⟨v, (h.prolongs.result i ?_).trans hresult, h.name name v hv⟩
  by_contra hge
  unfold Function.result? at hresult
  rw [Edit.inst_of_size_le (Nat.le_of_not_lt hge)] at hresult
  cases hresult

end Reading

/-- Every element of the first of two related lists has its partner in the second one. -/
theorem exists_mem_of_forall₂ {δ : Type} {R : γ → δ → Prop} {l : List γ} {l' : List δ} (h : List.Forall₂ R l l')
    {c : γ} (hc : c ∈ l) : ∃ d ∈ l', R c d := by
  induction h with
  | nil => cases hc
  | cons hcd _ ih =>
    rcases List.mem_cons.1 hc with rfl | hc
    · exact ⟨_, List.mem_cons_self, hcd⟩
    · obtain ⟨d, hd, hrel⟩ := ih hc
      exact ⟨d, List.mem_cons_of_mem _ hd, hrel⟩

namespace Reader

variable {id : FuncId} {r r' : Reading}

/-- What is found for each element of a list, if it stays so while the function is built. -/
theorem mapM_continues (id : FuncId) {δ : Type} {Q : γ → δ → Reading → Prop} {act : γ → Reader δ} {list : List γ}
    (hkeep : ∀ c d r r', Reading.Continues id r r' → Q c d r → Q c d r')
    (hact : ∀ c ∈ list, ∀ r r' d, r.Labelled id → (act c).run r = .ok (d, r') → r.Continues id r' ∧ Q c d r')
    {found : List δ} {r r' : Reading} (hr : r.Labelled id) (h : (list.mapM act).run r = .ok (found, r')) :
    r.Continues id r' ∧ List.Forall₂ (fun c d => Q c d r') list found := by
  refine Stateful.mapM_builds (P := fun done found r₁ => r.Continues id r₁ ∧ List.Forall₂ (fun c d => Q c d r₁) done found)
    ?_ ⟨.refl hr, .nil⟩ h
  rintro c hc done found r₁ r₂ d ⟨hcontinues, hall⟩ hrun
  obtain ⟨hmore, hd⟩ := hact c hc r₁ r₂ d hcontinues.labelled hrun
  exact ⟨hcontinues.trans hmore, List.rel_append (hall.imp fun _ _ => hkeep _ _ _ _ hmore) (.cons hd .nil)⟩

/-- The phi of a statement, with its result by name. -/
def IsPhiOf (id : FuncId) (block : BlockId) (s : Statement) (e : BlockId × InstId × Statement) (r : Reading) : Prop :=
  e.1 = block ∧ e.2.2 = s ∧ ∀ name, s.result = some name → ∃ v, (r.module.function id).result? e.2.1 = some v ∧
    ((r.module.function id).value v).name = some name

/-- The tables of a body that is opened: they tell the values by their names and the blocks by their names, and every
phi statement has its phi. -/
structure Opening (source : FunctionSource) (blocks : List (String × BlockId)) (phis : List (BlockId × InstId × Statement))
    (r : Reading) : Prop where
  labelled : r.Labelled source.id
  ids : (blocks.map Prod.snd).Nodup
  named : ∀ e ∈ blocks, (r.module.function source.id).blockName e.2 = e.1
  phis : ∀ block ∈ source.blocks, ∀ s ∈ block.statements, s.op.isPhi = true →
    ∃ c, (block.name, c) ∈ blocks ∧ ∃ e ∈ phis, IsPhiOf source.id c s e r

/-- A function without a body names nothing. -/
theorem name_new (name : String) (paramCount : Nat) (returnsValue : Bool) (v : ValueId) :
    ((Function.new name paramCount returnsValue).value v).name = none := by
  unfold Function.value Function.new
  rw [Array.getD_eq_getD_getElem?, Array.getElem?_ofFn]
  split <;> rfl

/-- Opening a body fills its tables. -/
theorem opening_openBody {source : FunctionSource} {phis : List (BlockId × InstId × Statement)}
    (hdeclared : source.Declared r.module) (hfits : ∀ b ∈ source.blocks, b.Fits)
    (h : (openBody source).run r = .ok ((blocks, phis), r')) : Opening source blocks phis r' := by
  obtain ⟨r₂, r₃, r₄, found, hparams, hcreate, hphis, rfl, hready⟩ := openBody_eq_ok h
  obtain ⟨name, returns, hnew⟩ := hdeclared.blank
  -- at the start there are the parameters, and nothing has a name
  have hnone : ∀ v, ((r.module.function source.id).value v).name = none := fun v => hnew ▸ name_new ..
  have hstart : Reading.Labelled source.id { r with values := [] } := fun name v =>
    iff_of_false nofun fun hv => by
      rw [hnone v] at hv
      cases hv
  have hlabels₂ : Reading.Labels source.id { r with values := [] } r₂ := by
    refine labels_defineParams ⟨source.id, none⟩ 0 (fun i v hv => ?_) (fun v _ => hnone v) hparams
    change (r.module.function source.id).params[i]? = some v at hv
    rw [hnew] at hv
    obtain ⟨hi, hv⟩ := List.getElem?_eq_some_iff.1 hv
    exact hv.symm.trans (List.getElem_range hi)
  have hbuilt₂ := (builds_defineParams ⟨source.id, none⟩ _ _ hparams).code.body
  obtain ⟨hids, hsize₃, -⟩ := createBlocks_spec ⟨source.id, none⟩ hcreate
  obtain ⟨hlabels₃, hnames, hnamed⟩ :=
    named_createBlocks ⟨source.id, none⟩ [] (fun e he => absurd he List.not_mem_nil) hcreate
  have h₃ : r₃.Labelled source.id := (hlabels₃ (hlabels₂ hstart).1).1
  -- every phi statement gets its phi
  have hkeep : ∀ (c : BlockId) (s : Statement) (e : BlockId × InstId × Statement) (r r' : Reading),
      Reading.Continues source.id r r' → IsPhiOf source.id c s e r → IsPhiOf source.id c s e r' :=
    fun c s e r r' hcontinues he => ⟨he.1, he.2.1, fun name hname => hcontinues.result (he.2.2 name hname)⟩
  obtain ⟨h₄, hfound⟩ := mapM_continues source.id
    (Q := fun p l r => List.Forall₂ (fun s e => IsPhiOf source.id p.2 s e r) (p.1.statements.filter fun s => s.op.isPhi) l)
    (fun p l r r' hcontinues hl => List.Forall₂.imp (fun s e he => hkeep p.2 s e r r' hcontinues he) hl)
    (fun p _ r r' l hr hrun => mapM_continues source.id (Q := fun s e r => IsPhiOf source.id p.2 s e r)
      (fun s e r r' => hkeep p.2 s e r r') (fun s _ r r' e hr hrun => by
        obtain ⟨phi, r₁, hphi, hpure⟩ := bind_eq_ok hrun
        cases hpure
        obtain ⟨hlabels, hresult⟩ := labels_createPhi ⟨source.id, none⟩ hphi
        exact ⟨hlabels.continues hr (createPhi_spec ⟨source.id, none⟩ hphi).1, rfl, rfl, hresult⟩) hr hrun) h₃ hphis
  have h₅ := (labels_buildReady hready).continues h₄.labelled
    (builds_buildReady source.id blocks _ _ (fun p hp => hfits p.1 (List.of_mem_zip hp).1) hready).body
  have hends := h₄.trans h₅
  refine ⟨h₅.labelled, ?_, fun e he => ?_, fun block hblock s hs hphi => ?_⟩
  · rw [hids]
    exact List.nodup_range'
  · obtain ⟨hlt, hname⟩ := hnamed e he
    exact (hends.prolongs.blockName e.2 hlt).trans hname
  · obtain ⟨k, hk, rfl⟩ := List.mem_iff_getElem.1 hblock
    have hlength : blocks.length = source.blocks.length := by
      simpa using congrArg List.length hnames
    have hk' : k < blocks.length := hlength ▸ hk
    have hname : (blocks[k]).1 = (source.blocks[k]).name := by
      have hat := congrArg (fun l => l[k]?) hnames
      simpa [hk, hk'] using hat
    have hpending : (source.blocks[k], (blocks[k]).2) ∈ source.blocks.zip (blocks.map (·.2)) :=
      List.mem_iff_getElem?.2 ⟨k, by rw [List.getElem?_zip_eq_some]; simp [hk, hk']⟩
    obtain ⟨l, hl, hphis⟩ := exists_mem_of_forall₂ hfound hpending
    obtain ⟨e, he, hof⟩ := exists_mem_of_forall₂ hphis (List.mem_filter.2 ⟨hs, hphi⟩)
    have hentry : ((source.blocks[k]).name, (blocks[k]).2) ∈ blocks := by
      rw [← hname]
      exact List.getElem_mem hk'
    exact ⟨_, hentry, e, List.mem_flatten.2 ⟨l, hl, he⟩, hkeep _ _ _ _ _ h₅ hof⟩

end Reader

end SsaCompiler
