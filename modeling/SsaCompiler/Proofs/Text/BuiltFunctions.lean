import SsaCompiler.Proofs.Ir.TendedRecords
import SsaCompiler.Proofs.Stateful
import SsaCompiler.Text.Reading
import Mathlib.Logic.Relation

/-!
# How bodies are built

Reading the body of a function takes steps of five sorts: it adds values, it appends an instruction together
with the edges that it opens, it adds a block, it puts an empty phi into a block, and it gives a phi one more
slot. Operands are read by steps of the first sort, statements by steps of the first two. What every step keeps
is kept by reading the whole text: the functions of a module that was read are sound.
-/

set_option autoImplicit false

namespace SsaCompiler

open Edits Relation

variable {block : BlockId} {hasResult : Bool} {i phi : InstId} {kind : InstKind} {operands : List ValueId}

namespace Function

/-- A step of building code. -/
inductive CodeStep : Function → Function → Prop
  | values {f f' : Function} (h : f.MoreValues f') : CodeStep f f'
  /-- An instruction comes with its edges. -/
  | append {f f₁ f₂ f' : Function} {kind : InstKind} {operands : List ValueId} {hasResult : Bool} {b : BlockId}
    {i : InstId} (hfits : kind.fits operands.length = true) (hphi : kind.isPhi = false)
    (hgives : hasResult = true → kind.givesValue = true) (hvalued : kind.alwaysGives = true → hasResult = true)
    (hcreate : (Edit.createInst kind operands hasResult).run f = (.ok i, f₁))
    (hpush : (Edit.pushBack b i).run f₁ = (.ok (), f₂))
    (hedges : (kind.targets.forM fun t => Edit.addPred t b).run f₂ = (.ok (), f')) : CodeStep f f'

/-- A step of building a body. -/
inductive BuildStep : Function → Function → Prop
  | code {f f' : Function} (h : f.CodeStep f') : BuildStep f f'
  | block {f f' : Function} {name : String} {b : BlockId} (h : (Edit.createBlock name).run f = (.ok b, f')) :
    BuildStep f f'
  | phi {f f₁ f' : Function} {b : BlockId} {i : InstId}
    (hcreate : (Edit.createInst .phi [] true).run f = (.ok i, f₁))
    (hinsert : (Edit.insertPhi b i).run f₁ = (.ok (), f')) : BuildStep f f'
  | slot {f f' : Function} {i : InstId} {v : ValueId} (hphi : (f.kind i).isPhi = true)
    (hpush : (Edit.pushOperand i v).run f = (.ok (), f')) : BuildStep f f'

/-- Steps of building a body. -/
def BuildSteps : Function → Function → Prop := ReflTransGen BuildStep

variable {f f' : Function}

variable {b : BlockId}

/-- The blocks to which edges were opened exist. -/
theorem lt_of_forM_addPred {targets : List BlockId} :
    ∀ {f f' : Function}, (targets.forM fun t => Edit.addPred t b).run f = (.ok (), f') →
      ∀ t ∈ targets, t < f.blocks.size := by
  induction targets with
  | nil => exact fun _ t ht => absurd ht List.not_mem_nil
  | cons s rest ih =>
    intro f f' h t ht
    obtain ⟨⟨⟩, f₁, hfirst, hrest⟩ := bind_eq_ok h
    obtain ⟨hlt, -, hbecomes, -⟩ := Edit.addPred_spec hfirst
    rcases List.mem_cons.1 ht with rfl | ht
    · exact hlt
    · exact hbecomes.blocks_size ▸ ih hrest t ht

/-- A step of building code keeps a function sound. -/
theorem CodeStep.sound (h : f.CodeStep f') (hs : f.Sound) : f'.Sound := by
  cases h with
  | values h => exact h.sound hs
  | append hfits hphi hgives hvalued hcreate hpush hedges =>
    rename_i f₁ f₂ kind operands hasResult b i
    obtain ⟨rfl, hcreated⟩ := Edit.created_createInst hcreate
    have hnew : f₁.inst f.insts.size =
        { kind, operands, result := if hasResult then some f.values.size else none } := by
      rw [hcreated.inst, Function.update_self]
    have hs₁ := hcreated.sound hs hgives
    have hsize : f₂.blocks.size = f₁.blocks.size := (Edit.pushBack_spec hpush).2.2.2.1.blocks_size
    have hs₂ : f₂.Sound := by
      refine Edit.sound_pushBack hs₁ ?_ (fun t ht => ?_) hpush
      · unfold Function.kind Function.operands
        rw [hnew]
        exact hfits
      · unfold Function.kind at ht
        rw [hnew] at ht
        exact hsize ▸ lt_of_forM_addPred hedges t ht
    exact Preserves.forM (fun t _ g g' _ hg hrun => Edit.sound_addPred hg hrun) hs₂ hedges

/-- A step of building keeps a function sound. -/
theorem BuildStep.sound (h : f.BuildStep f') (hs : f.Sound) : f'.Sound := by
  cases h with
  | code h => exact h.sound hs
  | block h => exact Edit.sound_createBlock hs h
  | phi hcreate hinsert => exact Edit.sound_newPhi hs hcreate hinsert
  | slot hphi hpush => exact Edit.sound_pushOperand hs hphi hpush

/-- A step of building code brings in no parameter. -/
theorem CodeStep.outlines (h : f.CodeStep f') : f.Outlines (fun kind => ∀ k, kind ≠ .param k) (fun _ => True) f' := by
  cases h with
  | values h => exact h.outlines fun kind hkind k hk => by rw [hk] at hkind; cases hkind
  | append hfits hphi hgives hvalued hcreate hpush hedges =>
    have hcreated : f.Outlines (fun kind => ∀ k, kind ≠ .param k) (fun _ => True) _ :=
      Edit.brings_createInst trivial _ (fun _ _ => by simp) f (.refl f) hcreate
    have hpushed := Edit.brings_pushBack _ _ f hcreated hpush
    exact Preserves.forM (fun _ _ => Edit.brings_modifyBlock _ _ f) hpushed hedges

/-- A step of building brings in no parameter. -/
theorem BuildStep.outlines (h : f.BuildStep f') : f.Outlines (fun kind => ∀ k, kind ≠ .param k) (fun _ => True) f' := by
  cases h with
  | code h => exact h.outlines
  | block h => exact Edit.Brings.outlines (Edit.brings_createBlock _) h
  | phi hcreate hinsert =>
    have hcreated : f.Outlines (fun kind => ∀ k, kind ≠ .param k) (fun _ => True) _ :=
      Edit.brings_createInst trivial _ (fun _ _ => by simp) f (.refl f) hcreate
    exact Edit.brings_insertPhi _ _ f hcreated hinsert
  | slot _ hpush => exact Edit.Brings.outlines (Edit.brings_pushOperand _ _) hpush

/-- Placing an instruction changes no kind. -/
theorem kind_place {pos : Nat} (h : (Edit.place b pos i).run f = (.ok (), f')) (j : InstId) :
    f'.kind j = f.kind j := by
  obtain ⟨-, -, -, -, hbecomes, -⟩ := Edit.place_spec h
  unfold kind
  rw [hbecomes.inst]
  exact Function.proj_update (by rfl) _

/-- A new instruction takes no other one's place. -/
theorem isPhi_created (h : (Edit.createInst kind operands hasResult).run f = (.ok i, f')) {j : InstId}
    (hj : (f.kind j).isPhi = true) : (f'.kind j).isPhi = true := by
  obtain ⟨rfl, hcreated⟩ := Edit.created_createInst h
  have hne : j ≠ f.insts.size := by
    rintro rfl
    unfold Function.kind at hj
    rw [Edit.inst_of_size_le (Nat.le_refl _)] at hj
    cases hj
  unfold Function.kind
  rw [hcreated.inst, Function.update_of_ne hne]
  exact hj

theorem CodeStep.isPhi (h : f.CodeStep f') {j : InstId} (hj : (f.kind j).isPhi = true) : (f'.kind j).isPhi = true := by
  cases h with
  | values h =>
    unfold kind
    rw [h.inst]
    exact hj
  | append hfits hphi hgives hvalued hcreate hpush hedges =>
    have hplaced := kind_place (Edit.place_of_pushBack hpush).2.2 j ▸ isPhi_created hcreate hj
    refine Preserves.forM (P := fun g => (g.kind j).isPhi = true) (fun t _ g g' _ hg hrun => ?_) hplaced hedges
    obtain ⟨-, -, hbecomes, -⟩ := Edit.addPred_spec hrun
    unfold kind
    rw [hbecomes.inst]
    exact hg

theorem BuildStep.isPhi (h : f.BuildStep f') {j : InstId} (hj : (f.kind j).isPhi = true) :
    (f'.kind j).isPhi = true := by
  cases h with
  | code h => exact h.isPhi hj
  | block h =>
    obtain ⟨-, rfl⟩ := Edit.createBlock_spec h
    exact hj
  | phi hcreate hinsert => exact kind_place (Edit.place_of_insertPhi hinsert).2 j ▸ isPhi_created hcreate hj
  | slot hphi hpush =>
    obtain ⟨-, -, -, hbecomes, -⟩ := Edit.pushOperand_spec hpush
    unfold kind
    rw [hbecomes.inst, Function.update_apply]
    split
    · exact hphi
    · exact hj

section

variable (h : f.BuildSteps f')

include h

theorem BuildSteps.sound (hs : f.Sound) : f'.Sound := by
  induction h with
  | refl => exact hs
  | tail _ hstep ih => exact hstep.sound ih

theorem BuildSteps.isPhi {i : InstId} (hi : (f.kind i).isPhi = true) : (f'.kind i).isPhi = true := by
  induction h with
  | refl => exact hi
  | tail _ hstep ih => exact hstep.isPhi ih

/-- Building brings in no parameter. -/
theorem BuildSteps.outlines : f.Outlines (fun kind => ∀ k, kind ≠ .param k) (fun _ => True) f' := by
  induction h with
  | refl => exact .refl f
  | tail _ hstep ih => exact ih.trans hstep.outlines

/-- Building keeps the heading. -/
theorem BuildSteps.heading : f'.heading = f.heading := h.outlines.heading

/-- Building keeps the parameters. -/
theorem BuildSteps.headed (hf : f.Headed) : f'.Headed :=
  hf.of_outlines h.outlines fun k hk => hk k rfl

end

end Function

namespace Module

/-- A module with the globals and strings of another one, and maybe more strings, each named by its number. -/
structure MoreStrings (m m' : Module) : Prop where
  globals : m'.globals = m.globals
  size : m.strings.size ≤ m'.strings.size
  old : ∀ k, k < m.strings.size → m'.strings[k]? = m.strings[k]?
  new : ∀ k s, m.strings.size ≤ k → m'.strings[k]? = some s → s.name = s!"_str{k}"

namespace MoreStrings

variable {m m' m'' : Module}

theorem of_eq (hglobals : m'.globals = m.globals) (hstrings : m'.strings = m.strings) : m.MoreStrings m' where
  globals := hglobals
  size := Nat.le_of_eq (congrArg Array.size hstrings).symm
  old k _ := by rw [hstrings]
  new k s hk hs := by
    rw [hstrings, Array.getElem?_eq_none hk] at hs
    cases hs

theorem refl (m : Module) : m.MoreStrings m := of_eq rfl rfl

theorem trans (h : m.MoreStrings m') (h' : m'.MoreStrings m'') : m.MoreStrings m'' where
  globals := h'.globals.trans h.globals
  size := h.size.trans h'.size
  old k hk := (h'.old k (hk.trans_le h.size)).trans (h.old k hk)
  new k s hk hs := by
    by_cases hlt : k < m'.strings.size
    · exact h.new k s hk (h'.old k hlt ▸ hs)
    · exact h'.new k s (Nat.le_of_not_lt hlt) hs

/-- Entering a literal. -/
theorem addString (m : Module) (literal : String) : m.MoreStrings (m.addString literal).2 := by
  unfold Module.addString
  dsimp only
  split
  · exact refl m
  · refine ⟨rfl, ?_, fun k hk => ?_, fun k s hk hs => ?_⟩
    · rw [Array.size_push]
      exact Nat.le_succ _
    · exact Array.getElem?_push_lt hk ▸ (Array.getElem?_eq_getElem hk).symm
    · change (m.strings.push _)[k]? = some s at hs
      rw [Array.getElem?_push] at hs
      split at hs
      · rename_i hk'
        cases hs
        rw [hk']
      · rw [Array.getElem?_eq_none hk] at hs
        cases hs

end MoreStrings

/-- The functions of a module refer to globals and strings that exist. -/
def Linked (m : Module) : Prop := ∀ id, (m.function id).Linked m.globals.size m.strings.size

/-- Steps of building one function of a module. The others stay. -/
structure Built (S : Function → Function → Prop) (id : FuncId) (m m' : Module) : Prop where
  size : m'.functions.size = m.functions.size
  others : ∀ j, j ≠ id → m'.function j = m.function j
  steps : ReflTransGen S (m.function id) (m'.function id)
  symbols : m.MoreStrings m'
  linked : m.Linked → m'.Linked

namespace Built

variable {S S' : Function → Function → Prop} {id : FuncId} {m m' m'' : Module}

theorem refl (id : FuncId) (m : Module) : Built S id m m :=
  ⟨rfl, fun _ _ => rfl, ReflTransGen.refl, .refl m, fun h => h⟩

theorem trans (h : Built S id m m') (h' : Built S id m' m'') : Built S id m m'' :=
  ⟨h'.size.trans h.size, fun j hj => (h'.others j hj).trans (h.others j hj), ReflTransGen.trans h.steps h'.steps,
    h.symbols.trans h'.symbols, fun hm => h'.linked (h.linked hm)⟩

theorem mono (hS : ∀ f f', S f f' → S' f f') (h : Built S id m m') : Built S' id m m' :=
  ⟨h.size, h.others, ReflTransGen.mono hS _ _ h.steps, h.symbols, h.linked⟩

/-- Adding values is building code. -/
theorem code (h : Built Function.MoreValues id m m') : Built Function.CodeStep id m m' :=
  h.mono fun _ _ => .values

/-- Building code is building. -/
theorem body (h : Built Function.CodeStep id m m') : Built Function.BuildStep id m m' := h.mono fun _ _ => .code

theorem isPhi (h : Built Function.BuildStep id m m') (hi : ((m.function id).kind i).isPhi = true) :
    ((m'.function id).kind i).isPhi = true := Function.BuildSteps.isPhi h.steps hi

end Built

/-- Building keeps the headings of all functions. -/
theorem Built.heading {id : FuncId} {m m' : Module} (h : Built Function.BuildStep id m m') (j : FuncId) :
    (m'.function j).heading = (m.function j).heading := by
  by_cases hid : j = id
  · subst hid
    exact Function.BuildSteps.heading h.steps
  · rw [h.others j hid]

/-- All functions of a module are sound. -/
def Sound (m : Module) : Prop := ∀ id, id < m.functions.size → (m.function id).Sound

theorem Built.sound {id : FuncId} {m m' : Module} (h : Built Function.BuildStep id m m') (hm : m.Sound) : m'.Sound := by
  intro j hj
  rw [h.size] at hj
  by_cases hid : j = id
  · subst hid
    exact Function.BuildSteps.sound h.steps (hm j hj)
  · rw [h.others j hid]
    exact hm j hj

/-- The parameters of all functions of a module are in order. -/
def Headed (m : Module) : Prop := ∀ id, (m.function id).Headed

/-- Building keeps the parameters. -/
theorem Built.headed {id : FuncId} {m m' : Module} (h : Built Function.BuildStep id m m') (hm : m.Headed) : m'.Headed := by
  intro j
  by_cases hid : j = id
  · subst hid
    exact Function.BuildSteps.headed h.steps (hm j)
  · rw [h.others j hid]
    exact hm j

end Module

namespace ModuleEdit

variable {S S' : Function → Function → Prop} {id : FuncId} {m m' : Module} {α β : Type}

variable {e : Edit α}

variable {a : α}

section

variable (h : (editFunction id e).run m = (.ok a, m'))

include h

/-- Editing a function of a module. -/
theorem editFunction_eq_ok :
    ∃ f', e.run (m.function id) = (.ok a, f') ∧ m'.functions.size = m.functions.size ∧
      (∀ j, j ≠ id → m'.function j = m.function j) ∧ m'.function id = f' := by
  unfold editFunction at h
  have h₁ := of_get_bind h
  split at h₁
  · cases h₁
  · rename_i f hf
    obtain ⟨hlt, hat⟩ := Array.getElem?_eq_some_iff.1 hf
    have hfunction : m.function id = f := by
      unfold Module.function
      rw [Array.getD_eq_getD_getElem?, hf]
      rfl
    obtain ⟨⟨⟩, m₂, hset, h₂⟩ := bind_eq_ok h₁
    cases hset
    split at h₂
    · rename_i b hb
      cases h₂
      refine ⟨(e.run f).2, ?_, Array.size_setIfInBounds .., fun j hj => ?_, ?_⟩
      · rw [hfunction]
        exact Prod.ext hb rfl
      · unfold Module.function
        rw [Array.getD_eq_getD_getElem?, Array.getElem?_setIfInBounds_ne (Ne.symm hj),
          Array.getD_eq_getD_getElem?]
      · unfold Module.function
        rw [Array.getD_eq_getD_getElem?, Array.getElem?_setIfInBounds_self_of_lt hlt]
        rfl
    · cases h₂

/-- Editing a function leaves globals and strings alone. -/
theorem symbols_editFunction : m.MoreStrings m' := by
  unfold editFunction at h
  have h₁ := of_get_bind h
  split at h₁
  · cases h₁
  · obtain ⟨⟨⟩, m₂, hset, h₂⟩ := bind_eq_ok h₁
    cases hset
    split at h₂
    · cases h₂
      exact .of_eq rfl rfl
    · cases h₂

/-- An edit that refers to the globals and strings of the module only. -/
theorem linked_editFunction
    (he : e.Brings (ValueKind.Within m.globals.size m.strings.size) (InstKind.Within m.strings.size)) (hm : m.Linked) :
    m'.Linked := by
  obtain ⟨f', hrun, -, hothers, hat⟩ := editFunction_eq_ok h
  have hsymbols := symbols_editFunction h
  intro j
  refine Function.Linked.mono ?_ (Nat.le_of_eq (congrArg Array.size hsymbols.globals).symm) hsymbols.size
  by_cases hj : j = id
  · rw [hj, hat]
    exact (hm id).of_outlines (he.outlines hrun)
  · rw [hothers j hj]
    exact hm j

end

/-- A change of a module that only builds one function. -/
def Builds (S : Function → Function → Prop) (id : FuncId) (edit : ModuleEdit α) : Prop :=
  ∀ ⦃m m' a⦄, edit.run m = (.ok a, m') → Module.Built S id m m'

namespace Builds

/-- An edit of the function that takes steps of building. -/
theorem of_edit (h : ∀ ⦃f f' a⦄, e.run f = (.ok a, f') → S f f')
    (hbrings : ∀ globals strings, e.Brings (ValueKind.Within globals strings) (InstKind.Within strings)) :
    Builds S id (editFunction id e) := by
  intro m m' a hrun
  obtain ⟨f', he, hsize, hothers, rfl⟩ := editFunction_eq_ok hrun
  exact ⟨hsize, hothers, ReflTransGen.single (h he), symbols_editFunction hrun,
    linked_editFunction hrun (hbrings _ _)⟩

theorem pure (a : α) : Builds S id (pure a : ModuleEdit α) := by
  intro m m' b h
  cases h
  exact .refl id m

theorem get : Builds S id (get : ModuleEdit Module) := by
  intro m m' b h
  cases h
  exact .refl id m

theorem crash (text : Option String) : Builds S id (crash text : ModuleEdit α) := by
  intro m m' b h
  cases h

theorem bind {edit : ModuleEdit α} {next : α → ModuleEdit β} (h : Builds S id edit)
    (hnext : ∀ a, Builds S id (next a)) : Builds S id (edit >>= next) := by
  intro m m' b hrun
  obtain ⟨a, m₁, hfirst, hrest⟩ := bind_eq_ok hrun
  exact (h hfirst).trans (hnext a hrest)

end Builds

end ModuleEdit

namespace Builder

open ModuleEdit

variable {S : Function → Function → Prop} (b : Builder)

variable {m m' : Module}

/-- The block under construction. -/
theorem current_eq_ok {c : BlockId} (h : b.current.run m = (.ok c, m')) : b.block = some c ∧ m = m' := by
  unfold current at h
  split at h
  · rename_i c' hc
    cases h
    exact ⟨hc, rfl⟩
  · cases h

variable {v : ValueId}

/-- Interning a value that refers to a global or string of the module. -/
theorem built_internValue {kind : ValueKind} (hkind : kind.isComputed = false)
    (hwithin : kind.Within m.globals.size m.strings.size) (h : (b.edit (Edit.internValue kind)).run m = (.ok v, m')) :
    Module.Built Function.MoreValues b.func m m' := by
  unfold Builder.edit at h
  obtain ⟨f', he, hsize, hothers, rfl⟩ := editFunction_eq_ok h
  exact ⟨hsize, hothers, ReflTransGen.single (Edit.internValue_spec hkind he).1, symbols_editFunction h,
    linked_editFunction h (Edit.brings_internValue hwithin)⟩

section

variable (hfits : kind.fits operands.length = true)

include hfits

section

variable (hphi : kind.isPhi = false) (hgives : hasResult = true → kind.givesValue = true)
    (hvalued : kind.alwaysGives = true → hasResult = true) (htargets : kind.targets = [])

include hphi hgives hvalued htargets

/-- Appending an instruction that leads nowhere and refers to strings of the module only. -/
theorem built_emit (hwithin : kind.Within m.strings.size) (h : (b.emit kind operands hasResult).run m = (.ok i, m')) :
    Module.Built Function.CodeStep b.func m m' := by
  obtain ⟨c, m₁, hcurrent, hedit⟩ := bind_eq_ok h
  obtain ⟨-, rfl⟩ := b.current_eq_ok hcurrent
  obtain ⟨f', he, hsize, hothers, rfl⟩ := editFunction_eq_ok hedit
  obtain ⟨j, f₁, hcreate, h₁⟩ := bind_eq_ok he
  obtain ⟨⟨⟩, f₂, hpush, hpure⟩ := bind_eq_ok h₁
  have hstep : Function.CodeStep (m.function b.func) f₂ := by
    refine .append hfits hphi hgives hvalued hcreate hpush ?_
    rw [htargets]
    rfl
  cases hpure
  refine ⟨hsize, hothers, ReflTransGen.single hstep, symbols_editFunction hedit, linked_editFunction hedit fun f₀ => ?_⟩
  exact .bind (Edit.brings_createInst hwithin _ (fun _ _ => trivial) f₀) fun _ =>
    .bind (Edit.brings_pushBack _ _ f₀) fun _ => .pure _

/-- Appending an instruction that leads nowhere and refers to no string. -/
theorem builds_emit (hwithin : ∀ strings, kind.Within strings) :
    Builds Function.CodeStep b.func (b.emit kind operands hasResult) :=
  fun _ _ _ h => b.built_emit hfits hphi hgives hvalued htargets (hwithin _) h

/-- Appending an instruction and looking at its result. -/
theorem builds_emitResult (hwithin : ∀ strings, kind.Within strings) :
    Builds Function.CodeStep b.func (b.emitResult kind operands hasResult) :=
  .bind (b.builds_emit hfits hphi hgives hvalued htargets hwithin) fun _ => .bind .get fun _ => .pure _

end

theorem builds_emitValue (hphi : kind.isPhi = false)
    (hgives : kind.givesValue = true) (htargets : kind.targets = []) (hwithin : ∀ strings, kind.Within strings) :
    Builds Function.CodeStep b.func (b.emitValue kind operands) := by
  refine .bind (b.builds_emitResult hfits hphi (fun _ => hgives) (fun _ => rfl) htargets hwithin) fun result => ?_
  split
  · exact .pure _
  · exact .crash _

/-- Appending an instruction and opening its edges one after the other. -/
theorem append_of_emit {m₁ m₂ : Module} {source : BlockId} {edges : Edit PUnit} (hterm : kind.isTerminator = true)
    (hbrings : ∀ {V K}, edges.Brings V K)
    (hedges : ∀ f, edges.run f = (kind.targets.forM fun t => Edit.addPred t source).run f)
    (hcurrent : b.current.run m = (.ok source, m₁)) (hemit : (b.emit kind operands false).run m₁ = (.ok i, m₂))
    (hrun : (b.edit edges).run m₂ = (.ok ⟨⟩, m')) : Module.Built Function.CodeStep b.func m m' := by
  obtain ⟨hblock, rfl⟩ := b.current_eq_ok hcurrent
  obtain ⟨c, m₃, hcurrent', hedit⟩ := bind_eq_ok hemit
  obtain ⟨hblock', rfl⟩ := b.current_eq_ok hcurrent'
  obtain rfl : source = c := Option.some.inj (hblock.symm.trans hblock')
  obtain ⟨f₂, he, hsize, hothers, hat⟩ := editFunction_eq_ok hedit
  obtain ⟨f₃, he', hsize', hothers', hat'⟩ := editFunction_eq_ok hrun
  obtain ⟨j, f₁, hcreate, h₁⟩ := bind_eq_ok he
  obtain ⟨⟨⟩, f₄, hpush, hpure⟩ := bind_eq_ok h₁
  cases hpure
  have hemitted : m.Linked → m₂.Linked := linked_editFunction hedit fun f₀ =>
    .bind (Edit.brings_createInst (InstKind.within_of_isTerminator hterm _) _ (fun h => by cases h) f₀) fun _ =>
      .bind (Edit.brings_pushBack _ _ f₀) fun _ => .pure _
  refine ⟨hsize'.trans hsize, fun k hk => (hothers' k hk).trans (hothers k hk), ReflTransGen.single ?_,
    (symbols_editFunction hedit).trans (symbols_editFunction hrun), fun hm => linked_editFunction hrun hbrings (hemitted hm)⟩
  rw [hat, hedges] at he'
  rw [hat']
  exact .append hfits (InstKind.not_isPhi hterm) (fun h => absurd h Bool.false_ne_true)
    (fun h => absurd h (by simp [InstKind.not_alwaysGives hterm])) hcreate hpush he'

end

theorem builds_jump (target : BlockId) : Builds Function.CodeStep b.func (b.jump target) := by
  intro m m' i h
  obtain ⟨source, m₁, hcurrent, h₁⟩ := bind_eq_ok h
  obtain ⟨j, m₂, hemit, h₂⟩ := bind_eq_ok h₁
  obtain ⟨⟨⟩, m₃, hadd, hpure⟩ := bind_eq_ok h₂
  cases hpure
  have hbrings : ∀ {V K}, (Edit.addPred target source).Brings V K := Edit.brings_modifyBlock _ _
  refine b.append_of_emit rfl rfl hbrings (fun f => ?_) hcurrent hemit hadd
  change _ = (Edit.addPred target source >>= fun _ => pure ()).run f
  rw [bind_pure_unit]

theorem builds_branch (cond : ValueId) (t e : BlockId) : Builds Function.CodeStep b.func (b.branch cond t e) := by
  intro m m' i h
  obtain ⟨source, m₁, hcurrent, h₁⟩ := bind_eq_ok h
  obtain ⟨j, m₂, hemit, h₂⟩ := bind_eq_ok h₁
  obtain ⟨⟨⟩, m₃, hadd, hpure⟩ := bind_eq_ok h₂
  cases hpure
  have hbrings : ∀ {V K}, Edit.Brings V K (do
      Edit.addPred t source
      Edit.addPred e source) := fun f₀ =>
    .bind (Edit.brings_modifyBlock _ _ f₀) fun _ => Edit.brings_modifyBlock _ _ f₀
  refine b.append_of_emit rfl rfl hbrings (fun f => ?_) hcurrent hemit hadd
  change _ = (Edit.addPred t source >>= fun _ => Edit.addPred e source >>= fun _ => pure ()).run f
  rw [bind_pure_unit]

theorem builds_param (index : Nat) : Builds Function.MoreValues b.func (b.param index) := by
  refine .bind .get fun m => ?_
  split
  · exact .pure _
  · exact .crash _

theorem builds_global (name : String) : Builds Function.MoreValues b.func (b.global name) := by
  intro m m' v h
  have h₁ := of_get_bind h
  split at h₁
  · rename_i g hg
    obtain ⟨w, m₂, hintern, hpure⟩ := bind_eq_ok h₁
    cases hpure
    have hlt : g < m.globals.size := (Array.findIdx?_eq_some_iff_getElem.1 hg).1
    exact b.built_internValue rfl (by exact hlt) hintern
  · cases h₁
    exact .refl _ _

theorem builds_string (name : String) : Builds Function.MoreValues b.func (b.string name) := by
  intro m m' v h
  have h₁ := of_get_bind h
  split at h₁
  · rename_i s hs
    obtain ⟨w, m₂, hintern, hpure⟩ := bind_eq_ok h₁
    cases hpure
    have hlt : s < m.strings.size := (Array.findIdx?_eq_some_iff_getElem.1 hs).1
    exact b.built_internValue rfl (by exact hlt) hintern
  · cases h₁
    exact .refl _ _

theorem builds_addString (literal : String) : Builds S b.func (addString literal) := by
  intro m m' s h
  have hm : m' = (m.addString literal).2 := congrArg Prod.snd h.symm
  have hfunctions : m'.functions = m.functions := by
    rw [hm]
    unfold Module.addString
    dsimp only
    split <;> rfl
  have hall : ∀ j, m'.function j = m.function j := by
    intro j
    unfold Module.function
    rw [hfunctions]
  have hsymbols : m.MoreStrings m' := hm ▸ .addString m literal
  refine ⟨congrArg Array.size hfunctions, fun j _ => hall j, ?_, hsymbols, fun hlinked j => ?_⟩
  · rw [hall]
  · rw [hall]
    exact (hlinked j).mono (Nat.le_of_eq (congrArg Array.size hsymbols.globals).symm) hsymbols.size

theorem builds_formatPieces (chunks : List (List Char)) : Builds S b.func (formatPieces chunks) := by
  induction chunks with
  | nil => exact .pure _
  | cons chunk rest ih =>
    unfold formatPieces
    dsimp only
    split
    · exact .bind (.pure _) fun _ => .bind ih fun _ => .pure _
    · exact .bind (b.builds_addString _) fun _ => .bind (.pure _) fun _ => .bind ih fun _ => .pure _

/-- A literal that was entered has a number of the module. -/
theorem lt_size_of_addString (m : Module) (literal : String) :
    (m.addString literal).1 < (m.addString literal).2.strings.size := by
  unfold Module.addString
  dsimp only
  split
  · rename_i id hid
    exact (Array.findIdx?_eq_some_iff_getElem.1 hid).1
  · rw [Array.size_push]
    exact Nat.lt_succ_self _

/-- The pieces of a chunk and of the chunks behind it. Only a chunk with characters is entered in the module. -/
theorem formatPieces_cons_eq_ok {chunk : List Char} {rest : List (List Char)} {pieces : List PrintPiece}
    (h : (formatPieces (chunk :: rest)).run m = (.ok pieces, m')) : ∃ head m₁ tail,
      (chunk = [] ∧ head = [] ∧ m₁ = m ∨ ∃ s, head = [.str s] ∧ m.addString (String.ofList ('"' :: chunk ++ ['"'])) = (s, m₁)) ∧
      (formatPieces rest).run m₁ = (.ok tail, m') ∧
      pieces = head ++ (if rest.isEmpty then [] else [PrintPiece.arg]) ++ tail := by
  unfold formatPieces at h
  dsimp only at h
  split at h
  · rename_i hempty
    obtain ⟨head, m₁, hpure, h₁⟩ := bind_eq_ok h
    cases hpure
    obtain ⟨tail, m₂, htail, hreturn⟩ := bind_eq_ok h₁
    cases hreturn
    exact ⟨[], m, tail, .inl ⟨List.isEmpty_iff.1 hempty, rfl, rfl⟩, htail, rfl⟩
  · obtain ⟨s, m₁, hadd, h₁⟩ := bind_eq_ok h
    obtain ⟨head, m₂, hpure, h₂⟩ := bind_eq_ok h₁
    cases hpure
    obtain ⟨tail, m₃, htail, hreturn⟩ := bind_eq_ok h₂
    cases hreturn
    have hm₁ : (m.addString _).2 = m₁ := congrArg Prod.snd hadd
    have hs : (m.addString _).1 = s := Except.ok.inj (congrArg Prod.fst hadd)
    exact ⟨[.str s], m₁, tail, .inr ⟨s, rfl, Prod.ext hs hm₁⟩, htail, rfl⟩

/-- The pieces of a format have an argument between any two chunks and refer to strings of the module. -/
theorem formatPieces_spec {chunks : List (List Char)} : ∀ {m m' : Module} {pieces : List PrintPiece},
    (formatPieces chunks).run m = (.ok pieces, m') →
      pieces.count .arg = chunks.length - 1 ∧ (InstKind.print pieces).Within m'.strings.size := by
  induction chunks with
  | nil =>
    intro m m' pieces h
    cases h
    exact ⟨rfl, fun s hs => absurd hs List.not_mem_nil⟩
  | cons chunk rest ih =>
    intro m m' pieces h
    obtain ⟨head, m₁, tail, hchunk, htail, rfl⟩ := formatPieces_cons_eq_ok h
    -- What stands before the rest is at most one string of the module as it is then.
    obtain ⟨hhead, hwithin⟩ : head.count .arg = 0 ∧ (InstKind.print head).Within m₁.strings.size := by
      rcases hchunk with ⟨-, rfl, -⟩ | ⟨s, rfl, hadd⟩
      · exact ⟨rfl, fun s hs => absurd hs List.not_mem_nil⟩
      · refine ⟨rfl, fun t ht => ?_⟩
        cases List.mem_singleton.1 ht
        have hlt := lt_size_of_addString m (String.ofList ('"' :: chunk ++ ['"']))
        rwa [hadd] at hlt
    obtain ⟨hcount, hrest⟩ := ih htail
    have hmore := (builds_formatPieces (S := Eq) ⟨0, none⟩ rest htail).symbols
    refine ⟨?_, fun s hs => ?_⟩
    · rw [List.count_append, List.count_append, hhead, hcount]
      cases rest with
      | nil => rfl
      | cons next rest =>
        simp
        omega
    · rcases List.mem_append.1 hs with hs | hs
      · rcases List.mem_append.1 hs with hs | hs
        · exact Nat.lt_of_lt_of_le (hwithin s hs) hmore.size
        · split at hs
          · exact absurd hs List.not_mem_nil
          · cases List.mem_singleton.1 hs
      · exact hrest s hs

/-- There is one chunk more than there are argument marks. -/
theorem length_splitFormat (format : List Char) : (splitFormat format).length = LineReader.countMarks format + 1 := by
  fun_induction splitFormat format with
  | case1 rest ih => rw [List.length_cons, ih, LineReader.countMarks]
  | case2 c rest hmark chunk chunks hchunks ih =>
    rw [hchunks] at ih
    rw [LineReader.countMarks.eq_2 _ _ hmark]
    exact ih
  | case3 c rest hmark hchunks ih =>
    rw [hchunks] at ih
    cases ih
  | case4 => rfl

/-- A quote behind a text is no mark. -/
theorem countMarks_quote (text : List Char) : LineReader.countMarks (text ++ ['"']) = LineReader.countMarks text := by
  fun_induction LineReader.countMarks text with
  | case1 rest ih => rw [List.cons_append, List.cons_append, LineReader.countMarks, ih]
  | case2 c rest hmark ih =>
    rw [List.cons_append, LineReader.countMarks.eq_2, ih]
    intro more hc hrest
    cases rest with
    | nil => simp at hrest
    | cons d rest =>
      obtain ⟨rfl, -⟩ := List.cons.inj hrest
      exact hmark rest hc rfl
  | case3 => rfl

/-- Quotes around a text are no marks. -/
theorem countMarks_strip (literal : List Char) :
    LineReader.countMarks (StringConst.strip literal) = LineReader.countMarks literal := by
  unfold StringConst.strip
  split
  · rename_i rest
    split
    · rename_i hlast
      have hsplit : rest = rest.dropLast ++ ['"'] := (List.dropLast_append_getLast? _ hlast).symm
      have hquote : LineReader.countMarks ('"' :: rest) = LineReader.countMarks rest := by
        rw [LineReader.countMarks.eq_2]
        simp
      rw [hquote]
      conv => rhs; rw [hsplit]
      exact (countMarks_quote _).symm
    · rfl
  · rfl

/-- Appending a print with an argument for each mark. -/
theorem builds_print {format : String} {args : List ValueId}
    (hargs : LineReader.countMarks format.toList = args.length) :
    Builds Function.CodeStep b.func (b.print format args) := by
  intro m m' i h
  obtain ⟨pieces, m₁, hpieces, hemit⟩ := bind_eq_ok h
  obtain ⟨hcount, hwithin⟩ := formatPieces_spec hpieces
  refine (b.builds_formatPieces _ hpieces).trans (b.built_emit ?_ rfl (fun h => absurd h Bool.false_ne_true)
    (fun h => Bool.noConfusion h) rfl hwithin hemit)
  rw [length_splitFormat, countMarks_strip, hargs] at hcount
  exact decide_eq_true (Nat.le_of_eq hcount)

theorem builds_ret (value : Option ValueId) : Builds Function.CodeStep b.func (b.ret value) := by
  refine b.builds_emit ?_ rfl (fun h => absurd h Bool.false_ne_true) (fun h => Bool.noConfusion h) rfl fun _ => trivial
  cases value <;> rfl

theorem builds_callBuiltin (callee : Builtin) (args : List ValueId) :
    Builds Function.CodeStep b.func (b.callBuiltin callee args) :=
  b.builds_emitResult rfl rfl (fun _ => rfl) (fun h => Bool.noConfusion h) rfl fun _ => trivial

theorem builds_call (callee : FuncId) (args : List ValueId) : Builds Function.CodeStep b.func (b.call callee args) := by
  refine .bind .get fun m => .bind (.of_edit (fun f f' _ h => .values (Edit.addCallee_spec h)) fun _ _ f₀ =>
    Edit.preserves_outline_modify fun _ => ⟨rfl, Nat.le_refl _, fun _ _ => rfl, fun _ => .inl rfl, fun _ => .inl rfl⟩) fun _ => ?_
  exact b.builds_emitResult rfl rfl (fun _ => rfl) (fun h => Bool.noConfusion h) rfl fun _ => trivial

/-- Creating an empty phi. -/
theorem emptyPhi_spec (h : (b.emptyPhi block).run m = (.ok (phi, v), m')) :
    Module.Built Function.BuildStep b.func m m' ∧ ((m'.function b.func).kind phi).isPhi = true := by
  unfold emptyPhi Builder.edit at h
  obtain ⟨f', he, hsize, hothers, hat⟩ := editFunction_eq_ok h
  obtain ⟨i, f₁, hcreate, h₁⟩ := bind_eq_ok he
  obtain ⟨_, f₂, hinsert, h₂⟩ := bind_eq_ok h₁
  obtain ⟨w, -, hpure⟩ := Edit.ask_bind_eq_ok h₂
  cases hpure
  refine ⟨⟨hsize, hothers, ?_, symbols_editFunction h, linked_editFunction h fun f₀ => ?_⟩, ?_⟩
  · rw [hat]
    exact ReflTransGen.single (.phi hcreate hinsert)
  · exact .bind (Edit.brings_createInst trivial _ (fun _ _ => trivial) f₀) fun _ =>
      .bind (Edit.brings_insertPhi _ _ f₀) fun _ => .bind (Edit.brings_ask _ f₀) fun _ => .pure _
  · obtain ⟨hphi, hplace⟩ := Edit.place_of_insertPhi hinsert
    rw [hat, Function.kind_place hplace]
    exact hphi

end Builder

/-- An operation as it is read from a line: a print has an argument for each mark of its format. -/
def SourceOp.Fits : SourceOp → Prop
  | print format args => LineReader.countMarks format.toList = args.length
  | _ => True

/-- A block whose statements were read from lines. -/
def BlockSource.Fits (b : BlockSource) : Prop := ∀ s ∈ b.statements, s.op.Fits

namespace Reader

open ModuleEdit

variable {α β : Type}

variable {source : FunctionSource} {phis : List (BlockId × InstId × Statement)} {blocks : List (String × BlockId)}
variable {act : Reader α} {r r' : Reading} {s : Statement}

variable {next : α → Reader β}

/-- Two steps of reading succeed when both do. -/
theorem bind_eq_ok {b : β} (h : (act >>= next).run r = .ok (b, r')) :
    ∃ a r₁, act.run r = .ok (a, r₁) ∧ (next a).run r₁ = .ok (b, r') := Stateful.bind_eq_ok h

/-- Changing the module. -/
theorem change_eq_ok {edit : ModuleEdit α} {a : α} (h : (change edit).run r = .ok (a, r')) :
    ∃ m', edit.run r.module = (.ok a, m') ∧ r' = { r with module := m' } := by
  unfold change at h
  have h₁ := Stateful.of_get_bind h
  obtain ⟨⟨⟩, r₂, hmodify, h₂⟩ := bind_eq_ok h₁
  cases hmodify
  split at h₂
  · rename_i b hb
    cases h₂
    exact ⟨(edit.run r.module).2, Prod.ext hb rfl, rfl⟩
  · cases h₂

/-- A step of reading that only builds one function. -/
def Builds (S : Function → Function → Prop) (id : FuncId) (act : Reader α) : Prop :=
  ∀ ⦃r r' a⦄, act.run r = .ok (a, r') → Module.Built S id r.module r'.module

namespace Builds

variable {S : Function → Function → Prop} {id : FuncId}

/-- A step that does not touch the module. -/
theorem of_module_eq (h : ∀ ⦃r r' a⦄, act.run r = .ok (a, r') → r'.module = r.module) : Builds S id act := by
  intro r r' a hrun
  rw [h hrun]
  exact .refl id _

theorem pure (a : α) : Builds S id (pure a : Reader α) := of_module_eq fun r r' b h => by
  cases h
  rfl

theorem get : Builds S id (get : Reader Reading) := of_module_eq fun r r' b h => by
  cases h
  rfl

theorem fault (line : Nat) (f : TextFault) : Builds S id (fault line f : Reader α) :=
  of_module_eq fun _ _ _ h => nomatch h

/-- A change of the module that builds. -/
theorem change {edit : ModuleEdit α} (h : ModuleEdit.Builds S id edit) : Builds S id (change edit) := by
  intro r r' a hrun
  obtain ⟨m', hedit, rfl⟩ := change_eq_ok hrun
  exact h hedit

theorem bind (h : Builds S id act) (hnext : ∀ a, Builds S id (next a)) : Builds S id (act >>= next) := by
  intro r r' b hrun
  obtain ⟨a, r₁, hfirst, hrest⟩ := bind_eq_ok hrun
  exact (h hfirst).trans (hnext a hrest)

theorem forM {act : α → Reader PUnit} {list : List α} (h : ∀ a ∈ list, Builds S id (act a)) :
    Builds S id (list.forM act) := by
  induction list with
  | nil => exact pure _
  | cons a rest ih =>
    exact bind (h a List.mem_cons_self) fun _ => ih fun c hc => h c (List.mem_cons_of_mem _ hc)

theorem mapM {act : α → Reader β} (h : ∀ a, Builds S id (act a)) (list : List α) : Builds S id (list.mapM act) := by
  induction list with
  | nil => exact pure _
  | cons a rest ih =>
    rw [List.mapM_cons]
    exact bind (h a) fun _ => bind ih fun _ => pure _

/-- Adding values is building code. -/
theorem code (h : Builds Function.MoreValues id act) : Builds Function.CodeStep id act :=
  fun _ _ _ hrun => (h hrun).code

end Builds

variable {S : Function → Function → Prop} (b : Builder)

theorem builds_define (line : Nat) (name : String) (v : ValueId) : Builds Function.MoreValues b.func (define b line name v) := by
  refine .bind (.change (.of_edit (fun f f' _ h => Edit.setValueName_spec h) fun _ _ =>
    Edit.brings_modifyValue _ fun _ => rfl)) ?_
  refine fun _ => .bind .get fun r => ?_
  have hlast : Builds Function.MoreValues b.func (modify fun r => { r with values := (name, v) :: r.values } : Reader PUnit) :=
    .of_module_eq fun r r' _ h => by
      cases h
      rfl
  dsimp only
  split
  · exact .bind (.fault _ _) fun _ => hlast
  · exact hlast

theorem builds_value (line : Nat) (operand : SourceOperand) : Builds Function.MoreValues b.func (value b line operand) := by
  cases operand with
  | int c => exact .change fun m m' v h => b.built_internValue rfl (by trivial) h
  | localName name =>
    refine .bind .get fun r => ?_
    split
    · exact .pure _
    · exact .fault _ _
  | symbol name =>
    refine .bind (.change (b.builds_global name)) fun v => ?_
    split
    · exact .pure _
    · refine .bind (.change (b.builds_string name)) fun w => ?_
      split
      · exact .pure _
      · exact .fault _ _

/-- Reading an operand of a statement. -/
theorem codes_value (line : Nat) (operand : SourceOperand) : Builds Function.CodeStep b.func (value b line operand) :=
  (builds_value b line operand).code

theorem builds_blockNamed (blocks : List (String × BlockId)) (line : Nat) (name : String) :
    Builds S b.func (blockNamed blocks line name) := by
  unfold blockNamed
  split
  · exact .pure _
  · exact .fault _ _

theorem builds_buildCall (line : Nat) (named : Bool) (callee : String) (args : List SourceOperand) :
    Builds Function.CodeStep b.func (buildCall b line named callee args) := by
  refine .bind (.mapM (codes_value b line) args) fun values => .bind .get fun r => ?_
  have hcheck : ∀ (arity : Nat) (returns : Bool), Builds Function.CodeStep b.func (do
      if arity ≠ values.length then fault line (.callArity callee arity values.length)
      if named && !returns then fault line (.voidCallResult callee) : Reader Unit) := by
    intro arity returns
    dsimp only
    split
    · refine .bind (.fault _ _) fun _ => ?_
      split
      · exact .fault _ _
      · exact .pure _
    · split
      · exact .fault _ _
      · exact .pure _
  dsimp only
  split
  · exact .bind (hcheck _ _) fun _ => .change (b.builds_callBuiltin _ values)
  · split
    · exact .bind (hcheck _ _) fun _ => .change (b.builds_call _ values)
    · exact .fault _ _

theorem builds_buildOp (blocks : List (String × BlockId)) (line : Nat) (named : Bool) {op : SourceOp} (hop : op.Fits) :
    Builds Function.CodeStep b.func (buildOp b blocks line named op) := by
  cases op with
  | binary op l r =>
    refine .bind (codes_value b line l) fun l => .bind (codes_value b line r) fun r => ?_
    exact .bind (.change (b.builds_emitValue rfl rfl rfl rfl fun _ => by trivial)) fun _ => .pure _
  | alloca words => exact .bind (.change (b.builds_emitValue rfl rfl rfl rfl fun _ => by trivial)) fun _ => .pure _
  | load base index =>
    refine .bind (codes_value b line base) fun base => .bind (codes_value b line index) fun index => ?_
    exact .bind (.change (b.builds_emitValue rfl rfl rfl rfl fun _ => by trivial)) fun _ => .pure _
  | store base index data =>
    refine .bind (codes_value b line base) fun base => .bind (codes_value b line index) fun index => ?_
    refine .bind (codes_value b line data) fun data => .bind (.change ?_) fun _ => .pure _
    exact b.builds_emit rfl rfl (fun h => absurd h Bool.false_ne_true) (fun h => Bool.noConfusion h) rfl fun _ => trivial
  | gep base index multiplier =>
    refine .bind (codes_value b line base) fun base => .bind (codes_value b line index) fun index => ?_
    exact .bind (.change (b.builds_emitValue rfl rfl rfl rfl fun _ => by trivial)) fun _ => .pure _
  | call callee args => exact builds_buildCall b line named callee args
  | print format args =>
    intro r r' v h
    obtain ⟨values, r₁, hvalues, h₁⟩ := bind_eq_ok h
    have hargs : LineReader.countMarks format.toList = values.length := hop.trans (Stateful.length_of_mapM hvalues).symm
    have hprint : Builds Function.CodeStep b.func (do
        let _ ← Reader.change (b.print format values)
        return none : Reader (Option ValueId)) := .bind (.change (b.builds_print hargs)) fun _ => .pure _
    exact (Builds.mapM (codes_value b line) args hvalues).trans (hprint h₁)
  | phi pairs => exact .pure _
  | jump target =>
    refine .bind (builds_blockNamed b blocks line target) fun target => ?_
    exact .bind (.change (b.builds_jump target)) fun _ => .pure _
  | branch cond thenBlock elseBlock =>
    refine .bind (codes_value b line cond) fun cond => .bind (builds_blockNamed b blocks line thenBlock) fun t => ?_
    refine .bind (builds_blockNamed b blocks line elseBlock) fun e => ?_
    exact .bind (.change (b.builds_branch cond t e)) fun _ => .pure _
  | ret given =>
    refine .bind .get fun r => ?_
    have hret : ∀ v, Builds Function.CodeStep b.func (do
        let _ ← Reader.change (b.ret v)
        return none : Reader (Option ValueId)) := fun v => .bind (.change (b.builds_ret v)) fun _ => .pure _
    dsimp only
    split
    · exact .bind (.bind (codes_value b line _) fun _ => .pure _) hret
    · exact .bind (.pure _) hret
    · exact .bind (.fault _ _) hret
    · exact .bind (.fault _ _) hret

theorem builds_buildStatement (blocks : List (String × BlockId)) (hs : s.op.Fits) :
    Builds Function.CodeStep b.func (buildStatement b blocks s) := by
  refine .bind (builds_buildOp b blocks _ _ hs) fun result => ?_
  split
  · exact (builds_define b _ _ _).code
  · exact .pure _

theorem builds_buildReady (func : FuncId) (blocks : List (String × BlockId)) (limit : Nat) :
    ∀ pending : List (BlockSource × BlockId), (∀ p ∈ pending, p.1.Fits) →
      Builds Function.CodeStep func (buildReady func blocks limit pending) := by
  induction limit with
  | zero => exact fun _ _ => .pure _
  | succ limit ih =>
    intro pending hfits
    refine .bind .get fun r => ?_
    dsimp only
    split
    · exact .pure _
    · split
      · exact .pure _
      · rename_i source id hat
        refine .bind (.forM (fun s hs => ?_)) fun _ => ih _ fun p hp => hfits p (List.mem_of_mem_eraseIdx hp)
        exact builds_buildStatement ⟨func, some _⟩ blocks (hfits _ (List.mem_of_getElem? hat) s (List.mem_filter.1 hs).1)

theorem builds_createBlocks (sources : List BlockSource) :
    ∀ created, Builds Function.BuildStep b.func (createBlocks b sources created) := by
  induction sources with
  | nil => exact fun _ => .pure _
  | cons source rest ih =>
    intro created
    have hrest : Builds Function.BuildStep b.func (do
        let id ← Reader.change (b.edit (Edit.createBlock source.name))
        createBlocks b rest (created ++ [(source.name, id)])) :=
      .bind (.change (.of_edit (fun f f' _ h => .block h) fun _ _ => Edit.brings_createBlock _)) fun id => ih _
    unfold createBlocks
    split
    · exact .bind (.fault _ _) fun _ => hrest
    · exact hrest

theorem builds_incomingPairs (blocks : List (String × BlockId)) (line : Nat) (block : BlockId)
    (pairs : List (String × SourceOperand)) : Builds Function.MoreValues b.func (incomingPairs b blocks line block pairs) := by
  induction pairs with
  | nil => exact .pure _
  | cons pair rest ih =>
    obtain ⟨name, operand⟩ := pair
    refine .bind (builds_blockNamed b blocks line name) fun source => .bind .get fun r => ?_
    have hrest : Builds Function.MoreValues b.func (do
        let v ← value b line operand
        return (source, v) :: (← incomingPairs b blocks line block rest)) :=
      .bind (builds_value b line operand) fun v => .bind ih fun _ => .pure _
    dsimp only
    split
    · exact .bind (.fault _ _) fun _ => hrest
    · exact hrest

theorem builds_defineParams (line : Nat) (params : List String) :
    Builds Function.MoreValues b.func (defineParams b line params) :=
  .forM fun _ _ => .bind (.change (b.builds_param _)) fun _ => builds_define b _ _ _

/-- Creating the phi of a statement. -/
theorem createPhi_spec (h : (createPhi b block s).run r = .ok (phi, r')) :
    Module.Built Function.BuildStep b.func r.module r'.module ∧ ((r'.module.function b.func).kind phi).isPhi = true := by
  obtain ⟨⟨i, v⟩, r₁, hchange, h₁⟩ := bind_eq_ok h
  obtain ⟨m₁, hedit, rfl⟩ := change_eq_ok hchange
  obtain ⟨hbuilt, hphi⟩ := b.emptyPhi_spec hedit
  dsimp only at h₁
  split at h₁
  · obtain ⟨⟨⟩, r₂, hdefine, hpure⟩ := bind_eq_ok h₁
    cases hpure
    have hnamed := (builds_define b _ _ _ hdefine).code.body
    exact ⟨hbuilt.trans hnamed, hnamed.isPhi hphi⟩
  · cases h₁
    exact ⟨hbuilt, hphi⟩

/-- A step for each element of a list builds, if building keeps what each step needs. -/
theorem forM_builds {γ : Type} {id : FuncId} {P : Module → Prop} {act : γ → Reader PUnit} {list : List γ}
    (hkeep : ∀ m m', Module.Built Function.BuildStep id m m' → P m → P m')
    (hact : ∀ c ∈ list, ∀ r r', P r.module → (act c).run r = .ok (⟨⟩, r') → Module.Built Function.BuildStep id r.module r'.module) :
    ∀ {r r' : Reading}, P r.module → (list.forM act).run r = .ok (⟨⟩, r') →
      Module.Built Function.BuildStep id r.module r'.module := by
  induction list with
  | nil =>
    intro r r' _ h
    cases h
    exact .refl _ _
  | cons c rest ih =>
    intro r r' hr h
    obtain ⟨⟨⟩, r₁, hfirst, hrest⟩ := bind_eq_ok h
    have hbuilt := hact c List.mem_cons_self r r₁ hr hfirst
    exact hbuilt.trans (ih (fun d hd => hact d (List.mem_cons_of_mem _ hd)) (hkeep _ _ hbuilt hr) hrest)

/-- Filling a phi. -/
theorem fillPhi_spec (hphi : ((r.module.function b.func).kind phi).isPhi = true)
    (h : (fillPhi b blocks block phi s).run r = .ok ((), r')) :
    Module.Built Function.BuildStep b.func r.module r'.module := by
  unfold fillPhi at h
  split at h
  · obtain ⟨incoming, r₁, hpairs, h₁⟩ := bind_eq_ok h
    have h₂ := Stateful.of_get_bind h₁
    have hbuilt := (builds_incomingPairs b _ _ _ _ hpairs).code.body
    refine hbuilt.trans (forM_builds (P := fun m => ((m.function b.func).kind phi).isPhi = true)
      (fun m m' hm hphi => hm.isPhi hphi) (fun pred _ r r' hphi hrun => ?_) (hbuilt.isPhi hphi) h₂)
    split at hrun
    · obtain ⟨m', hedit, rfl⟩ := change_eq_ok hrun
      obtain ⟨f', he, hsize, hothers, hat⟩ := editFunction_eq_ok hedit
      refine ⟨hsize, hothers, ?_, symbols_editFunction hedit, linked_editFunction hedit (Edit.brings_pushOperand _ _)⟩
      rw [hat]
      exact ReflTransGen.single (.slot hphi he)
    · cases hrun
  · cases h
    exact .refl _ _

/-- What a step gives for each element of a list is still so at the end, if building keeps it. -/
theorem mapM_builds {γ δ : Type} {id : FuncId} {Q : Module → δ → Prop} {act : γ → Reader δ}
    (hkeep : ∀ m m' d, Module.Built Function.BuildStep id m m' → Q m d → Q m' d)
    (hact : ∀ c r r' d, (act c).run r = .ok (d, r') → Module.Built Function.BuildStep id r.module r'.module ∧ Q r'.module d)
    {list : List γ} {r r' : Reading} {found : List δ} (h : (list.mapM act).run r = .ok (found, r')) :
    Module.Built Function.BuildStep id r.module r'.module ∧ ∀ d ∈ found, Q r'.module d := by
  refine Stateful.mapM_builds (P := fun _ found r₁ => Module.Built Function.BuildStep id r.module r₁.module ∧
    ∀ d ∈ found, Q r₁.module d) (d := []) ?_ ⟨.refl _ _, fun d hd => absurd hd List.not_mem_nil⟩ h
  rintro c - _ found r₁ r₂ d ⟨hbuilt, hfound⟩ hrun
  obtain ⟨hmore, hd⟩ := hact c r₁ r₂ d hrun
  refine ⟨hbuilt.trans hmore, fun x hx => ?_⟩
  rcases List.mem_append.1 hx with hx | hx
  · exact hkeep _ _ _ hmore (hfound x hx)
  · exact List.mem_singleton.1 hx ▸ hd

/-! ## Bodies -/

/-- The parts in which a body is opened. -/
theorem openBody_eq_ok (h : (openBody source).run r = .ok ((blocks, phis), r')) :
    ∃ r₂ r₃ r₄ found, (defineParams ⟨source.id, none⟩ source.line source.params).run { r with values := [] } = .ok (⟨⟩, r₂) ∧
      (createBlocks ⟨source.id, none⟩ source.blocks []).run r₂ = .ok (blocks, r₃) ∧
      ((source.blocks.zip (blocks.map (·.2))).mapM fun (p : BlockSource × BlockId) =>
        (p.1.statements.filter fun s => s.op.isPhi).mapM fun s => do
          return (p.2, ← createPhi ⟨source.id, none⟩ p.2 s, s) : Reader _).run r₃ = .ok (found, r₄) ∧
      phis = found.flatten ∧
      (buildReady source.id blocks (source.blocks.zip (blocks.map (·.2))).length
        (source.blocks.zip (blocks.map (·.2)))).run r₄ = .ok ([], r') := by
  obtain ⟨⟨⟩, r₁, hreset, h₁⟩ := bind_eq_ok h
  cases hreset
  obtain ⟨⟨⟩, r₂, hparams, h₂⟩ := bind_eq_ok h₁
  obtain ⟨blocks', r₃, hblocks, h₃⟩ := bind_eq_ok h₂
  obtain ⟨found, r₄, hphis, h₄⟩ := bind_eq_ok h₃
  obtain ⟨left, r₅, hready, h₅⟩ := bind_eq_ok h₄
  split at h₅
  · obtain ⟨r₆, r₇, hget, h₆⟩ := bind_eq_ok h₅
    split at h₆ <;> cases h₆
  · rename_i hleft
    cases h₅
    rw [List.head?_eq_none_iff.1 hleft] at hready
    exact ⟨r₂, r₃, r₄, found, hparams, hblocks, hphis, rfl, hready⟩

/-- Opening a body builds its function and leaves the others alone. -/
theorem builds_openBody (hfits : ∀ b ∈ source.blocks, b.Fits) (h : (openBody source).run r = .ok ((blocks, phis), r')) :
    Module.Built Function.BuildStep source.id r.module r'.module ∧
      ∀ e ∈ phis, ((r'.module.function source.id).kind e.2.1).isPhi = true := by
  obtain ⟨r₂, r₃, r₄, found, hparams, hblocks, hphis, rfl, hready⟩ := openBody_eq_ok h
  have hbuilt₂ := (builds_defineParams ⟨source.id, none⟩ _ _ hparams).code.body
  have hbuilt₃ := builds_createBlocks ⟨source.id, none⟩ _ _ hblocks
  have hcreated := mapM_builds
    (Q := fun m (l : List (BlockId × InstId × Statement)) => ∀ e ∈ l, ((m.function source.id).kind e.2.1).isPhi = true)
    (fun m m' l hbuilt hl e he => hbuilt.isPhi (hl e he))
    (fun c r r' l hrun => mapM_builds
      (Q := fun m (e : BlockId × InstId × Statement) => ((m.function source.id).kind e.2.1).isPhi = true)
      (fun m m' e hbuilt he => hbuilt.isPhi he) (fun s r r' e hrun => by
        obtain ⟨phi, r₁, hcreate, hpure⟩ := bind_eq_ok hrun
        cases hpure
        exact createPhi_spec ⟨source.id, none⟩ hcreate) hrun) hphis
  obtain ⟨hbuilt₄, hphis₄⟩ := hcreated
  have hbuilt₅ := (builds_buildReady source.id blocks _ _ (fun p hp => hfits p.1 (List.of_mem_zip hp).1) hready).body
  refine ⟨(hbuilt₂.trans hbuilt₃).trans (hbuilt₄.trans hbuilt₅), fun e he => ?_⟩
  obtain ⟨l, hl, hel⟩ := List.mem_flatten.1 he
  exact hbuilt₅.isPhi (hphis₄ l hl e hel)

/-- Filling the phis of a body builds its function and leaves the others alone. -/
theorem builds_fillPhis {id : FuncId} (hphis : ∀ e ∈ phis, ((r.module.function id).kind e.2.1).isPhi = true)
    (h : (phis.forM fun e => fillPhi ⟨id, none⟩ blocks e.1 e.2.1 e.2.2).run r = .ok (⟨⟩, r')) :
    Module.Built Function.BuildStep id r.module r'.module :=
  forM_builds (P := fun m => ∀ e ∈ phis, ((m.function id).kind e.2.1).isPhi = true)
    (fun _ _ hm hall e he => hm.isPhi (hall e he))
    (fun e he _ _ hall hrun => fillPhi_spec ⟨id, none⟩ (hall e he) hrun) hphis h

/-- Reading a body builds its function and leaves the others alone. -/
theorem builds_buildFunction (hfits : ∀ b ∈ source.blocks, b.Fits) :
    Builds Function.BuildStep source.id (buildFunction source) := by
  intro r r' _ h
  rw [buildFunction] at h
  obtain ⟨⟨blocks, phis⟩, r₁, hopen, hfill⟩ := bind_eq_ok h
  obtain ⟨hbuilt, hphis⟩ := builds_openBody hfits hopen
  exact hbuilt.trans (builds_fillPhis hphis hfill)

end Reader

end SsaCompiler
