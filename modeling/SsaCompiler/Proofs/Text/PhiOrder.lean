import SsaCompiler.Proofs.Ir.SuccessfulEdits
import SsaCompiler.Proofs.Text.FilledPhis
import SsaCompiler.Proofs.Text.RearrangedBodies

/-!
# The order of the pairs of a phi

The pairs of a phi are found by their blocks, so their order decides nothing but the order in which constants and
addresses are read, and with it the numbers of their values.
-/

set_option autoImplicit false

namespace SsaCompiler

open Edits
open Equiv (Perm)
open List (Forall₂)

/-! ## Pairs in another order -/

/-- Questions in another order have their answers in another order. -/
theorem mapM_perm {γ δ : Type} {act : γ → Option δ} {list list' : List γ} {found : List δ} (hperm : list'.Perm list)
    (h : list.mapM act = some found) : ∃ found', list'.mapM act = some found' ∧ found'.Perm found := by
  obtain ⟨found', hfound', hperm'⟩ := List.perm_comp_forall₂ hperm (mapM_eq_some_iff.1 h)
  exact ⟨found', mapM_eq_some_iff.2 hfound', hperm'⟩

/-- What is listed once under each key is found in any order. -/
theorem lookup_perm {γ : Type} {found found' : List (BlockId × γ)} (hperm : found'.Perm found)
    (hnodup : (found.map Prod.fst).Nodup) (c : BlockId) : found'.lookup c = found.lookup c := by
  cases hlookup : found.lookup c with
  | some d =>
    exact lookup_eq_some_of_mem ((hperm.map _).nodup_iff.2 hnodup) (hperm.mem_iff.2 (mem_of_lookup hlookup))
  | none =>
    cases hlookup' : found'.lookup c with
    | none => rfl
    | some d =>
      have hmem : c ∈ found.map Prod.fst := List.mem_map.2 ⟨(c, d), hperm.mem_iff.1 (mem_of_lookup hlookup'), rfl⟩
      exact absurd hmem (not_mem_of_lookup hlookup)

variable {pairs : List (String × SourceOperand)} {ref : Reference} {operand : SourceOperand} {v : ValueId}

/-- Pairs that name distinct keys are found under distinct keys. -/
theorem nodup_keys_of_mapM {pair : String × SourceOperand → Option (BlockId × Reference)}
    (hinj : ∀ p q c ref ref', pair p = some (c, ref) → pair q = some (c, ref') → p.1 = q.1) :
    ∀ {found : List (BlockId × Reference)}, (pairs.map Prod.fst).Nodup →
      pairs.mapM pair = some found → (found.map Prod.fst).Nodup := by
  induction pairs with
  | nil =>
    intro found _ h
    cases h
    exact List.nodup_nil
  | cons p rest ih =>
    intro found hnodup h
    obtain ⟨hnot, hnodup⟩ := List.nodup_cons.1 hnodup
    obtain ⟨x, more, hx, hmore, rfl⟩ := List.forall₂_cons_left_iff.1 (mapM_eq_some_iff.1 h)
    refine List.nodup_cons.2 ⟨fun hmem => ?_, ih hnodup (mapM_eq_some_iff.2 hmore)⟩
    obtain ⟨y, hy, hkey⟩ := List.mem_map.1 hmem
    obtain ⟨q, hq, hqy⟩ := exists_mem_of_forall₂ hmore.flip hy
    have hsame := hinj p q x.1 x.2 y.2 hx (hqy.trans (congrArg (fun c => some (c, y.2)) hkey))
    exact hnot (List.mem_map.2 ⟨q, hq, hsame.symm⟩)

namespace Function

variable {f f' : Function} {π : Perm ValueId} {phi : InstId}

theorem lt_of_named (h : ∃ name, (f.value v).name = some name) : v < f.values.size := by
  by_contra hge
  obtain ⟨name, hname⟩ := h
  rw [value_of_size_le (Nat.le_of_not_lt hge)] at hname
  cases hname

theorem InRange.enterAll {refs : List Reference} : ∀ {f : Function}, f.InRange → (f.enterAll refs).InRange := by
  induction refs with
  | nil => exact fun hf => hf
  | cons ref rest ih => exact fun hf => ih (hf.enter ref)

theorem Renumbered.preds (hfg : Renumbered π f f') (b : BlockId) : f'.preds b = f.preds b := by
  unfold Function.preds Function.block
  rw [hfg.blocks]

/-- Filling a phi with its pairs in another order gives other numbers, and it does nothing else. -/
theorem Renumbered.fill? (block : BlockId) (hfg : Renumbered π f f') (hm : f.Movable π) (hf : f.InRange)
    {pair : String × SourceOperand → Option (BlockId × Reference)}
    (hnamed : ∀ p c v, pair p = some (c, .named v) → ∃ name, (f.value v).name = some name)
    (hinj : ∀ p q c ref ref', pair p = some (c, ref) → pair q = some (c, ref') → p.1 = q.1)
    (hphi : phi < f.insts.size) {op op' : SourceOp} (hop : op.Rearranged op') :
    Option.Rel (fun g g' => g.InRange ∧ ∃ ρ, g.Movable ρ ∧ Renumbered ρ g g') (f.fill? pair block phi op.pairs)
      (f'.fill? pair block phi op'.pairs) := by
  have hperm : op'.pairs.Perm op.pairs := by
    cases hop with
    | same => exact .refl _
    | phi hperm => exact hperm
  unfold Function.fill?
  rw [hfg.preds]
  cases hfound : op.pairs.mapM pair with
  | none =>
    have hnone : op'.pairs.mapM pair = none := by
      by_contra hne
      obtain ⟨found', hfound'⟩ := Option.ne_none_iff_exists'.1 hne
      obtain ⟨found, hsome, -⟩ := mapM_perm hperm.symm hfound'
      rw [hfound] at hsome
      cases hsome
    rw [hnone]
    exact .none
  | some found =>
    obtain ⟨found', hfound', hfoundPerm⟩ := mapM_perm hperm hfound
    have hlookup : (fun p => found'.lookup p) = fun p => found.lookup p := by
      funext p
      cases hop with
      | same =>
        rw [hfound] at hfound'
        rw [Option.some.inj hfound']
      | phi _ hnodup => exact lookup_perm hfoundPerm (nodup_keys_of_mapM hinj hnodup hfound) p
    rw [hfound', Option.bind_eq_bind, Option.bind_eq_bind, Option.bind_some, Option.bind_some, hlookup]
    cases hrefs : (f.preds block).mapM fun p => found.lookup p with
    | none => exact .none
    | some refs =>
      have hlt : ∀ p c v, pair p = some (c, .named v) → v < f.values.size := fun p c v hp => lt_of_named (hnamed p c v hp)
      -- the constants and addresses of all pairs are entered
      obtain ⟨ρ, hmρ, hρ⟩ := exists_renumbered_of_perm (hfoundPerm.map Prod.snd).symm hf hfg hm
      have hmore := f.moreKinds_enterAll (found.map Prod.snd)
      -- the slots have the moved numbers
      have hnumbers : refs.map (fun ref => ref.number (f'.enterAll (found'.map Prod.snd))) =
          (refs.map fun ref => ref.number (f.enterAll (found.map Prod.snd))).map ρ := by
        rw [List.map_map]
        refine List.map_congr_left fun ref href => hρ.number hmρ fun v hv => ?_
        obtain ⟨⟨c, _⟩, hp, rfl⟩ := List.mem_map.1 (holds_of_lookup hlt hfound hrefs href).1
        obtain ⟨q, -, hq⟩ := exists_mem_of_forall₂ (mapM_eq_some_iff.1 hfound).flip hp
        obtain ⟨name, hname⟩ := hnamed q c v (hq.trans (congrArg (fun ref => some (c, ref)) hv))
        exact hmρ.fixed_of_name ((hmore.name v).trans hname)
      have hphi' : phi < (f.enterAll (found.map Prod.snd)).insts.size := by rwa [hmore.rest]
      have hin : ∀ v ∈ refs.map (fun ref => ref.number (f.enterAll (found.map Prod.snd))),
          v < (f.enterAll (found.map Prod.snd)).values.size := by
        intro v hv
        obtain ⟨ref, href, rfl⟩ := List.mem_map.1 hv
        exact (holds_of_lookup hlt hfound hrefs href).2.number_lt
      have hslots := hρ.withOperands hmρ hf.enterAll hphi' hin
      rw [← hnumbers] at hslots
      exact .some ⟨hslots.2.2, ρ, hslots.2.1, hslots.1⟩

/-- Filling all phis, each with its pairs in some order. -/
theorem Renumbered.fillAll? {pair : List BlockId → String × SourceOperand → Option (BlockId × Reference)}
    (hinj : ∀ preds p q c ref ref', pair preds p = some (c, ref) → pair preds q = some (c, ref') → p.1 = q.1)
    {phis phis' : List (BlockId × InstId × Statement)} (hphis : Forall₂ PhiRearranged phis phis') :
    ∀ {f f' : Function} {π : Perm ValueId}, Renumbered π f f' → f.Movable π → f.InRange →
      (∀ preds p c v, pair preds p = some (c, .named v) → ∃ name, (f.value v).name = some name) →
      (∀ e ∈ phis, e.2.1 < f.insts.size) →
      Option.Rel (fun g g' => ∃ ρ, g.Movable ρ ∧ Renumbered ρ g g') (f.fillAll? pair phis) (f'.fillAll? pair phis') := by
  induction hphis with
  | nil => exact fun hfg hm _ _ _ => .some ⟨_, hm, hfg⟩
  | @cons e e' rest rest' he _ ih =>
    intro f f' π hfg hm hf hnamed hsize
    have hfirst := hfg.fill? e.1 hm hf (hnamed (f.preds e.1)) (hinj (f.preds e.1))
      (hsize e List.mem_cons_self) he.statement.op
    unfold Function.fillAll?
    rw [he.block, he.phi, hfg.preds]
    generalize f'.fill? (pair (f.preds e.1)) e.1 e.2.1 e'.2.2.op.pairs = filled at hfirst ⊢
    cases hfill : f.fill? (pair (f.preds e.1)) e.1 e.2.1 e.2.2.op.pairs with
    | none =>
      rw [hfill] at hfirst
      cases hfirst
      exact .none
    | some g =>
      rw [hfill] at hfirst
      cases hfirst with
      | some hg =>
        obtain ⟨hrange, ρ, hmρ, hρ⟩ := hg
        have hkeeps := (fill?_spec (hsize e List.mem_cons_self) (fun p c v hp => lt_of_named (hnamed _ p c v hp)) hfill).1
        refine ih hρ hmρ hrange (fun preds p c v hp => ?_) fun e hmem => ?_
        · rw [hkeeps.name]
          exact hnamed preds p c v hp
        · rw [hkeeps.insts_size]
          exact hsize e (List.mem_cons_of_mem _ hmem)

end Function

/-! ## Bodies -/

namespace Reader

/-- A body that is opened: its tables and its phis, which have no slots yet. -/
structure Ready (source : FunctionSource) (blocks : List (String × BlockId)) (phis : List (BlockId × InstId × Statement))
    (r : Reading) : Prop where
  id_lt : source.id < r.module.functions.size
  opening : Opening source blocks phis r
  opened : (r.module.function source.id).Opened phis
  inRange : (r.module.function source.id).InRange

/-- A function that is declared and whose body was collected is ready when its body is opened. -/
theorem ready_openBody {source : FunctionSource} {blocks : List (String × BlockId)}
    {phis : List (BlockId × InstId × Statement)} {r r' : Reading} (hs : r.module.Sound) (hh : r.module.Headed)
    (hdeclared : source.Declared r.module) (hterm : ∀ b ∈ source.blocks, b.isTerminated = true ∧ b.Fits)
    (h : (openBody source).run r = .ok ((blocks, phis), r')) : Ready source blocks phis r' := by
  have hfits : ∀ b ∈ source.blocks, b.Fits := fun b hb => (hterm b hb).2
  obtain ⟨hbuilt, -⟩ := builds_openBody hfits h
  have hid : source.id < r'.module.functions.size := hbuilt.size ▸ hdeclared.id_lt
  have hsound := hbuilt.sound hs source.id hid
  exact ⟨hid, opening_openBody hdeclared hfits h, (opened_openBody (hs _ hdeclared.id_lt) hdeclared.blank_function hterm h).1,
    (hbuilt.headed hh source.id).params, fun i v hv => Edit.lt_size_of_mem_operands hsound.indexed hv,
    fun i v hv => (hsound.kind_of_result i v hv).1⟩

namespace Ready

variable {source : FunctionSource} {blocks : List (String × BlockId)} {phis : List (BlockId × InstId × Statement)}
  {r : Reading} (h : Ready source blocks phis r)

include h

theorem within : r.Within (r.module.function source.id) := fun _ _ hv => h.opening.labelled.lt hv

/-- What a pair names has its name. -/
theorem named (preds : List BlockId) (p : String × SourceOperand) (c : BlockId) (v : ValueId)
    (hp : r.pair blocks preds p = some (c, .named v)) :
    ∃ name, ((r.module.function source.id).value v).name = some name := by
  obtain ⟨name, -, hlookup⟩ := Reading.refer_eq_named (Reading.pair_eq_some_iff.1 hp).2.2
  exact ⟨name, (h.opening.labelled name v).1 hlookup⟩

/-- Blocks that are found under two names are two blocks. -/
theorem inj (preds : List BlockId) (p q : String × SourceOperand) (c : BlockId) (ref ref' : Reference)
    (hp : r.pair blocks preds p = some (c, ref)) (hq : r.pair blocks preds q = some (c, ref')) : p.1 = q.1 := by
  have hpc := mem_of_lookup (Reading.pair_eq_some_iff.1 hp).1
  have hqc := mem_of_lookup (Reading.pair_eq_some_iff.1 hq).1
  exact (Prod.mk.inj (List.inj_on_of_nodup_map h.opening.ids hpc hqc rfl)).1

/-- Filling the phis. -/
theorem run_fill : ((phis.forM fun e => fillPhi ⟨source.id, none⟩ blocks e.1 e.2.1 e.2.2).run r).toOption =
    ((r.module.function source.id).fillAll? (r.pair blocks) phis).map fun g => (⟨⟩, r.withFunction source.id g) :=
  run_fillPhis ⟨source.id, none⟩ h.id_lt h.within fun e he =>
    ⟨(h.opened.phi e he).2.2.2, Function.lt_size_of_isPhi (h.opened.phi e he).1⟩

end Ready

end Reader

namespace Reading

variable {id : FuncId} {r r' : Reading}

/-- Two states that differ, as far as the function `id` is concerned, in the numbers of values only. -/
structure Beside (id : FuncId) (r r' : Reading) : Prop where
  values : r'.values = r.values
  globals : r'.module.globals = r.module.globals
  strings : r'.module.strings = r.module.strings
  size : r'.module.functions.size = r.module.functions.size
  function : ∃ π, (r.module.function id).Movable π ∧ Function.Renumbered π (r.module.function id) (r'.module.function id)

/-- Pairs stand for the same in states that are abreast. -/
theorem Abreast.pair (h : r.Abreast id r') : r'.pair = r.pair := by
  have hrefer : r'.refer = r.refer := by
    funext operand
    cases operand with
    | int c => rfl
    | localName name =>
      unfold refer
      rw [h.values]
    | symbol name =>
      unfold refer
      dsimp only
      rw [h.module.globalByName?, h.module.stringByName?]
  unfold Reading.pair
  rw [hrefer]

end Reading

namespace Reader

/-- Building two bodies that are the same but for the order of the pairs of phis: both fail, or the functions differ in
numbers of values only. -/
theorem agree_buildFunction {source source' : FunctionSource} (hsource : source.Rearranged source') {r r' : Reading}
    (habreast : r.Abreast source.id r')
    (hready : ∀ blocks phis r₁, (openBody source).run r = .ok ((blocks, phis), r₁) → Ready source blocks phis r₁) :
    Outcome.Agree (fun x y => x.2.Beside source.id y.2) ((buildFunction source).run r) ((buildFunction source').run r') := by
  rw [buildFunction, buildFunction, StateT.run_bind, StateT.run_bind, hsource.id]
  refine (agrees_openBody hsource r r' habreast).bind_of_ok fun x y hx hy hxy => ?_
  obtain ⟨⟨blocks, phis⟩, r₁⟩ := x
  obtain ⟨⟨blocks', phis'⟩, r₁'⟩ := y
  obtain ⟨⟨hblocks, hphis⟩, hopen⟩ := hxy
  obtain rfl : blocks' = blocks := hblocks
  have h := hready blocks' phis r₁ hx
  have hfunction := hopen.module.function
  have hid : source.id < r₁'.module.functions.size := hopen.module.size ▸ h.id_lt
  have hphis' : ∀ e' ∈ phis', e'.2.2.op.isPhi = true ∧ e'.2.1 < (r₁'.module.function source.id).insts.size := by
    intro e' he'
    obtain ⟨e, he, hrel⟩ := exists_mem_of_forall₂ hphis.flip he'
    rw [hrel.phi, hfunction, hrel.statement.op.isPhi]
    exact ⟨(h.opened.phi e he).2.2.2, Function.lt_size_of_isPhi (h.opened.phi e he).1⟩
  have hwithin : r₁'.Within (r₁'.module.function source.id) := by
    rw [hfunction]
    unfold Reading.Within
    rw [hopen.values]
    exact h.within
  have hfilled := (Function.Renumbered.refl (r₁.module.function source.id)).fillAll? h.inj hphis (.one _) h.inRange h.named
    fun e he => Function.lt_size_of_isPhi (h.opened.phi e he).1
  refine Outcome.agree_of_toOption ?_
  dsimp only
  rw [h.run_fill, run_fillPhis ⟨source.id, none⟩ hid hwithin hphis', hopen.pair, hfunction]
  revert hfilled
  generalize (r₁.module.function source.id).fillAll? (r₁.pair blocks') phis = filled
  generalize (r₁.module.function source.id).fillAll? (r₁.pair blocks') phis' = filled'
  intro hfilled
  cases hfilled with
  | none => exact .none
  | some hg =>
    refine .some ⟨hopen.values, hopen.module.globals, hopen.module.strings, ?_, ?_⟩
    · exact (Reading.size_withFunction ..).trans (hopen.module.size.trans (Reading.size_withFunction ..).symm)
    · dsimp only
      rw [Reading.function_withFunction _ h.id_lt, Reading.function_withFunction _ hid]
      exact hg

end Reader

/-! ## Modules -/

/-- Two states of reading the bodies of two texts. The functions whose bodies are still to be read are the same, and the
others may differ in the numbers of values. -/
structure Reading.Alongside (left : List FuncId) (r r' : Reading) : Prop where
  values : r'.values = r.values
  globals : r'.module.globals = r.module.globals
  strings : r'.module.strings = r.module.strings
  size : r'.module.functions.size = r.module.functions.size
  functions : ∀ j, ∃ π, (r.module.function j).Movable π ∧ Function.Renumbered π (r.module.function j) (r'.module.function j)
  left : ∀ j ∈ left, r'.module.function j = r.module.function j

namespace Reading.Alongside

variable {id : FuncId} {left : List FuncId} {r r' r₁ r₁' : Reading}

theorem refl (left : List FuncId) (r : Reading) : r.Alongside left r where
  values := rfl
  globals := rfl
  strings := rfl
  size := rfl
  functions j := by
    have hmovable : (r.module.function j).Movable 1 := .one _
    have hrenumbered : Function.Renumbered 1 (r.module.function j) (r.module.function j) := .refl _
    exact ⟨1, hmovable, hrenumbered⟩
  left _ _ := rfl

/-- The next function is built from the same. -/
theorem abreast (h : r.Alongside (id :: left) r') : r.Abreast id r' where
  values := h.values
  module :=
    { globals := h.globals
      strings := h.strings
      size := h.size
      signatures := fun j => by
        obtain ⟨π, -, hfg⟩ := h.functions j
        unfold Module.signatureOf
        rw [hfg.name, hfg.params, List.length_map, hfg.returnsValue]
      function := h.left id List.mem_cons_self }

/-- After the next function was built. -/
theorem next (h : r.Alongside (id :: left) r') (hnot : id ∉ left) (hbeside : r₁.Beside id r₁')
    (hothers : ∀ j, j ≠ id → r₁.module.function j = r.module.function j)
    (hothers' : ∀ j, j ≠ id → r₁'.module.function j = r'.module.function j) : r₁.Alongside left r₁' where
  values := hbeside.values
  globals := hbeside.globals
  strings := hbeside.strings
  size := hbeside.size
  functions j := by
    by_cases hid : j = id
    · rw [hid]
      exact hbeside.function
    · rw [hothers j hid, hothers' j hid]
      exact h.functions j
  left j hj := by
    have hid : j ≠ id := by
      rintro rfl
      exact hnot hj
    have hbefore : r'.module.function j = r.module.function j := h.left j (List.mem_cons_of_mem _ hj)
    rw [hothers j hid, hothers' j hid, hbefore]

end Reading.Alongside

variable {sources : List FunctionSource}

namespace Reader

/-- Reading the bodies of two texts. -/
theorem agree_forM {sources' : List FunctionSource} (hsources : Forall₂ FunctionSource.Rearranged sources sources') :
    ∀ {r r' : Reading}, (sources.map (·.id)).Nodup → r.module.Sound → r.module.Headed →
      (∀ source ∈ sources, source.Awaits r.module) → (∀ source ∈ sources', ∀ b ∈ source.blocks, b.Fits) →
      r.Alongside (sources.map (·.id)) r' →
      Outcome.Agree (fun x y => x.2.Alongside [] y.2) ((sources.forM buildFunction).run r)
        ((sources'.forM buildFunction).run r') := by
  induction hsources with
  | nil => exact fun _ _ _ _ _ halong => halong
  | @cons source source' rest rest' hsource _ ih =>
    intro r r' hnodup hs hh hawaits hfits' halong
    obtain ⟨hnot, hnodup⟩ := List.nodup_cons.1 hnodup
    have hsource₀ := hawaits source List.mem_cons_self
    change Outcome.Agree _ (StateT.run (buildFunction source >>= fun _ => rest.forM buildFunction) r)
      (StateT.run (buildFunction source' >>= fun _ => rest'.forM buildFunction) r')
    rw [StateT.run_bind, StateT.run_bind]
    refine (agree_buildFunction hsource halong.abreast fun blocks phis r₁ hrun =>
      ready_openBody hs hh hsource₀.declared hsource₀.blocks hrun).bind_of_ok fun x y hx hy hbeside => ?_
    have hbuilt := builds_buildFunction (fun b hb => (hsource₀.blocks b hb).2) hx
    have hbuilt' := builds_buildFunction (hfits' source' List.mem_cons_self) hy
    rw [hsource.id] at hbuilt'
    refine ih hnodup (hbuilt.sound hs) (hbuilt.headed hh) (fun other hother => ?_)
      (fun other hother => hfits' other (List.mem_cons_of_mem _ hother)) (halong.next hnot hbeside hbuilt.others hbuilt'.others)
    refine (hawaits other (List.mem_cons_of_mem _ hother)).of_built hbuilt fun heq => hnot ?_
    exact List.mem_map.2 ⟨other, hother, heq⟩

end Reader

/-- Two modules that are the same but for the numbers of values for constants and addresses. -/
def Module.Renumbered (m m' : Module) : Prop :=
  ∃ π : FuncId → Perm ValueId, (∀ id v, π id v ≠ v → ((m.function id).value v).kind.isComputed = false) ∧
    m' = { m with functions := m.functions.mapIdx fun id f => f.renumber (π id) }

theorem Reading.Alongside.renumbered {r r' : Reading} (h : r.Alongside [] r') : r.module.Renumbered r'.module := by
  choose π hmovable hrenumbered using h.functions
  refine ⟨π, fun id v hv => (hmovable id).stands v hv, ?_⟩
  have hfunctions : r'.module.functions = r.module.functions.mapIdx fun id f => f.renumber (π id) := by
    refine Array.ext (by rw [Array.size_mapIdx, h.size]) fun id hid hid' => ?_
    have hat := (hrenumbered id).eq_renumber
    unfold Module.function at hat
    rw [Array.getElem_mapIdx]
    rwa [Array.getD_eq_getD_getElem?, Array.getD_eq_getD_getElem?, Array.getElem?_eq_getElem hid,
      Array.getElem?_eq_getElem (h.size ▸ hid)] at hat
  have hglobals := h.globals
  have hstrings := h.strings
  revert hfunctions hglobals hstrings
  generalize r'.module = m'
  rintro hfunctions hglobals hstrings
  cases m'
  simp only [Module.mk.injEq]
  exact ⟨hfunctions, hglobals, hstrings⟩

/-! ## Slots -/

/-- A value of a function is what an operand is written for: the constant, the value of that name, or the address of the
global or string of that name. -/
def Module.Denotes (m : Module) (id : FuncId) (operand : SourceOperand) (v : ValueId) : Prop :=
  match operand with
  | .int c => ((m.function id).value v).kind = .const c
  | .localName name => ∀ w, ((m.function id).value w).name = some name ↔ w = v
  | .symbol name => (∃ g, m.globalByName? name = some g ∧ ((m.function id).value v).kind = .global g) ∨
      m.globalByName? name = none ∧ ∃ s, m.stringByName? name = some s ∧ ((m.function id).value v).kind = .str s

/-- A phi of a text is a phi of the function: it stands among the phis of its block, its result has its name, and slot
by slot it reads what the text pairs with the predecessor of that slot. -/
structure Module.HoldsPhi (m : Module) (id : FuncId) (block : String) (result : Option String)
    (pairs : List (String × SourceOperand)) (b : BlockId) (phi : InstId) : Prop where
  blockName : (m.function id).blockName b = block
  placed : phi ∈ (m.function id).phis b
  result : ∀ name, result = some name → ∃ v, (m.function id).result? phi = some v ∧ m.Denotes id (.localName name) v
  length : ((m.function id).operands phi).length = ((m.function id).preds b).length
  slot : ∀ (k : Nat) (p : BlockId), ((m.function id).preds b)[k]? = some p → ∃ operand v,
    pairs.lookup ((m.function id).blockName p) = some operand ∧ ((m.function id).operands phi)[k]? = some v ∧
      m.Denotes id operand v

/-- All phis of a body are phis of its function. -/
def Module.HoldsPhis (m : Module) (source : FunctionSource) : Prop :=
  ∀ block ∈ source.blocks, ∀ s ∈ block.statements, ∀ pairs, s.op = .phi pairs →
    ∃ b phi, m.HoldsPhi source.id block.name s.result pairs b phi

namespace Module

variable {m m' : Module} {id : FuncId}

/-- More strings change nothing about those that are found. -/
theorem MoreStrings.stringByName? (h : m.MoreStrings m') {name : String} {s : StringId}
    (hs : m.stringByName? name = some s) : m'.stringByName? name = some s := by
  obtain ⟨hlt, hname, hfirst⟩ := Array.findIdx?_eq_some_iff_getElem.1 hs
  have hold : ∀ k (hk : k < m.strings.size), m'.strings[k]? = some m.strings[k] := fun k hk =>
    (h.old k hk).trans (Array.getElem?_eq_getElem hk)
  have hget : ∀ k (hk : k < m.strings.size) (hk' : k < m'.strings.size), m'.strings[k] = m.strings[k] := fun k hk hk' =>
    Option.some.inj ((Array.getElem?_eq_getElem hk').symm.trans (hold k hk))
  refine Array.findIdx?_eq_some_iff_getElem.2 ⟨Nat.lt_of_lt_of_le hlt h.size, ?_, fun k hk => ?_⟩
  · rwa [hget s hlt]
  · rw [hget k (hk.trans hlt)]
    exact hfirst k hk

theorem Denotes.of_moreStrings (hstrings : m.MoreStrings m') (hfunction : m'.function id = m.function id)
    (h : m.Denotes id operand v) : m'.Denotes id operand v := by
  have hglobals : ∀ name, m'.globalByName? name = m.globalByName? name := fun name => by
    unfold globalByName?
    rw [hstrings.globals]
  cases operand with
  | int c =>
    unfold Denotes
    rw [hfunction]
    exact h
  | localName name =>
    unfold Denotes
    rw [hfunction]
    exact h
  | symbol name =>
    unfold Denotes
    dsimp only
    rw [hfunction, hglobals]
    rcases h with h | ⟨hnone, s, hs, hkind⟩
    · exact .inl h
    · exact .inr ⟨hnone, s, hstrings.stringByName? hs, hkind⟩

/-- Reading other bodies leaves the phis alone. -/
theorem HoldsPhis.of_moreStrings {source : FunctionSource} (h : m.HoldsPhis source) (hstrings : m.MoreStrings m')
    (hfunction : m'.function source.id = m.function source.id) : m'.HoldsPhis source := by
  intro block hblock s hs pairs hop
  obtain ⟨b, phi, hphi⟩ := h block hblock s hs pairs hop
  refine ⟨b, phi, ?_, ?_, fun name hname => ?_, ?_, fun k p hp => ?_⟩
  · rw [hfunction]
    exact hphi.blockName
  · rw [hfunction]
    exact hphi.placed
  · rw [hfunction]
    obtain ⟨v, hv, hdenotes⟩ := hphi.result name hname
    exact ⟨v, hv, hdenotes.of_moreStrings hstrings hfunction⟩
  · rw [hfunction]
    exact hphi.length
  · rw [hfunction] at hp ⊢
    obtain ⟨operand, v, hoperand, hv, hdenotes⟩ := hphi.slot k p hp
    exact ⟨operand, v, hoperand, hv, hdenotes.of_moreStrings hstrings hfunction⟩

end Module

/-- What is found for a block is paired with the name of the block. -/
theorem Reading.lookup_pairs {r : Reading} {f : Function} {blocks : List (String × BlockId)} {preds : List BlockId}
    (hnamed : ∀ e ∈ blocks, f.blockName e.2 = e.1) {p : BlockId} :
    ∀ {found : List (BlockId × Reference)}, pairs.mapM (r.pair blocks preds) = some found → found.lookup p = some ref →
      ∃ operand, pairs.lookup (f.blockName p) = some operand ∧ r.refer operand = some ref := by
  induction pairs with
  | nil =>
    intro found h hlookup
    cases h
    cases hlookup
  | cons q rest ih =>
    intro found h hlookup
    obtain ⟨x, more, hx, hmore, rfl⟩ := List.forall₂_cons_left_iff.1 (mapM_eq_some_iff.1 h)
    obtain ⟨hblock, -, href⟩ := pair_eq_some_iff.1 hx
    have hname : f.blockName x.1 = q.1 := hnamed _ (mem_of_lookup hblock)
    rw [List.lookup_cons] at hlookup ⊢
    by_cases hp : p = x.1
    · rw [hp, beq_self_eq_true] at hlookup
      rw [hp, hname, beq_self_eq_true]
      exact ⟨q.2, rfl, href.trans hlookup⟩
    · rw [beq_false_of_ne hp] at hlookup
      -- no other pair has the name of the block
      have hne : f.blockName p ≠ q.1 := by
        intro heq
        obtain ⟨q', -, hq'⟩ := exists_mem_of_forall₂ hmore.flip (mem_of_lookup hlookup)
        have hblock' := (pair_eq_some_iff.1 hq').1
        have hname' : f.blockName p = q'.1 := hnamed _ (mem_of_lookup hblock')
        rw [← hname', heq, hblock] at hblock'
        exact hp (Option.some.inj hblock').symm
      rw [beq_false_of_ne hne]
      exact ih (mapM_eq_some_iff.2 hmore) hlookup

/-- What an operand stands for is what it is written for. -/
theorem Reading.denotes_of_refer {r : Reading} {id : FuncId} (hlabelled : r.Labelled id)
    (href : r.refer operand = some ref) (hholds : (r.module.function id).Holds ref) :
    r.module.Denotes id operand (ref.number (r.module.function id)) := by
  cases operand with
  | int c =>
    cases href
    exact hholds.2.1
  | localName name =>
    obtain ⟨v, hv, rfl⟩ := Option.map_eq_some_iff.1 href
    intro w
    rw [← hlabelled name w, hv]
    exact ⟨fun h => (Option.some.inj h).symm, fun h => congrArg some h.symm⟩
  | symbol name =>
    unfold refer at href
    dsimp only at href
    split at href
    · rename_i g hg
      cases href
      exact .inl ⟨g, hg, hholds.2.1⟩
    · rename_i hnone
      obtain ⟨s, hs, rfl⟩ := Option.map_eq_some_iff.1 href
      exact .inr ⟨hnone, s, hs, hholds.2.1⟩

namespace Reader

variable {source : FunctionSource} {r r' : Reading}

section

variable (hs : r.module.Sound) (hh : r.module.Headed) (hawaits : source.Awaits r.module)
    (hrun : (buildFunction source).run r = .ok ((), r'))

include hs hh hawaits hrun

/-- Building a body is opening it and filling its phis. Filling changes the function only, and there the operands of phis
and the constants and addresses that are read; so the table still tells the names. -/
theorem buildFunction_ok :
    ∃ blocks phis r₁ g, (openBody source).run r = .ok ((blocks, phis), r₁) ∧ Ready source blocks phis r₁ ∧
      r' = r₁.withFunction source.id g ∧ r'.module.function source.id = g ∧ (r₁.module.function source.id).Keeps g ∧
      (∀ e ∈ phis, g.Slots (r₁.pair blocks (g.preds e.1)) (g.preds e.1) e.2.1 e.2.2.op.pairs) ∧ r'.Labelled source.id := by
  rw [buildFunction] at hrun
  obtain ⟨⟨blocks, phis⟩, r₁, hopen, hfill⟩ := bind_eq_ok hrun
  have h := ready_openBody hs hh hawaits.declared hawaits.blocks hopen
  have hfilled := h.run_fill
  rw [Outcome.toOption_eq_some.2 hfill] at hfilled
  obtain ⟨g, hg, hstate⟩ := Option.map_eq_some_iff.1 hfilled.symm
  obtain rfl : r₁.withFunction source.id g = r' := congrArg Prod.snd hstate
  have hfunction : (r₁.withFunction source.id g).module.function source.id = g := Reading.function_withFunction g h.id_lt
  obtain ⟨hkeeps, -, hslots⟩ := Function.slots_fillAll? h.opened.nodup
    (fun e he => ⟨Function.lt_size_of_isPhi (h.opened.phi e he).1, (h.opened.phi e he).2.1⟩)
    (fun preds p c v hp => Function.lt_of_named (h.named preds p c v hp)) hg
  refine ⟨blocks, phis, r₁, g, hopen, h, rfl, hfunction, hkeeps, hslots, ?_⟩
  exact h.opening.labelled.of_same rfl fun v => by rw [hfunction, hkeeps.name]

/-- The phis of a body that was built hold what the text pairs with the predecessors. -/
theorem holds_buildFunction : r'.module.HoldsPhis source := by
  have hfinished := finished_buildFunction (hs _ hawaits.declared.id_lt) hawaits.declared.blank_function
    hawaits.nonempty hawaits.blocks hrun
  obtain ⟨blocks, phis, r₁, g, -, h, rfl, hfunction, hkeeps, hslots, hlabelled⟩ := buildFunction_ok hs hh hawaits hrun
  intro block hblock s hs pairs hop
  obtain ⟨c, hc, e, he, rfl, rfl, hresult⟩ := h.opening.phis block hblock s hs (by rw [hop]; rfl)
  obtain ⟨found, refs, hfound, hrefs, hoperands, hholds⟩ := (hslots e he).of
  rw [hop] at hfound
  refine ⟨e.1, e.2.1, ?_, ?_, fun name hname => ?_, ?_, fun k p hp => ?_⟩
  · rw [hfunction]
    unfold Function.blockName Function.block
    rw [hkeeps.blocks]
    exact h.opening.named _ hc
  · have hplace : ((r₁.withFunction source.id g).module.function source.id).blockOf? e.2.1 = some e.1 := by
      rw [hfunction, hkeeps.place]
      exact (h.opened.phi e he).2.2.1
    have hin := (hfinished.sound.placed e.1 e.2.1).2 hplace
    refine (Function.PhisFirst.mem_phis hfinished.shaped.phis_first (hfinished.mem_layout_iff.2 ?_)).2 ⟨hin, ?_⟩
    · by_contra hge
      unfold Function.instsOf at hin
      rw [Function.block_of_size_le (Nat.le_of_not_lt hge)] at hin
      exact List.not_mem_nil hin
    · rw [hfunction, hkeeps.instKind]
      exact (h.opened.phi e he).1
  · obtain ⟨v, hv, hvname⟩ := hresult name hname
    have hlookup : r₁.values.lookup name = some v := (h.opening.labelled name v).2 hvname
    refine ⟨v, by rw [hfunction, hkeeps.result]; exact hv, fun w => ?_⟩
    rw [← hlabelled name w]
    exact ⟨fun hw => (Option.some.inj (hw.symm.trans hlookup)), fun hw => hw ▸ hlookup⟩
  · rw [hfunction, hoperands, List.length_map]
    exact (mapM_eq_some_iff.1 hrefs).length_eq.symm
  · rw [hfunction] at hp ⊢
    have hat := forall₂_getElem? (mapM_eq_some_iff.1 hrefs) k
    rw [hp] at hat
    generalize hrefs' : refs[k]? = found' at hat
    cases hat with
    | some hlookup =>
      rename_i ref
      have hnamed : ∀ x ∈ blocks, g.blockName x.2 = x.1 := fun x hx => by
        unfold Function.blockName Function.block
        rw [hkeeps.blocks]
        exact h.opening.named x hx
      obtain ⟨operand, hoperand, href⟩ := Reading.lookup_pairs hnamed hfound hlookup
      have href' : (r₁.withFunction source.id g).refer operand = some ref := by rwa [Reading.refer_withFunction]
      have hdenotes := Reading.denotes_of_refer hlabelled href'
        (by rw [hfunction]; exact hholds ref (List.mem_of_getElem? hrefs'))
      rw [hfunction] at hdenotes
      refine ⟨operand, ref.number g, hoperand, ?_, hdenotes⟩
      rw [hoperands, List.getElem?_map, hrefs']
      rfl

end

/-- The phis of all bodies of a text. -/
theorem holds_forM (hnodup : (sources.map (·.id)).Nodup) (hs : r.module.Sound) (hh : r.module.Headed)
    (hawaits : ∀ source ∈ sources, source.Awaits r.module) (h : (sources.forM buildFunction).run r = .ok (⟨⟩, r')) :
      r.module.MoreStrings r'.module ∧
      (∀ id, id ∉ sources.map (·.id) → r'.module.function id = r.module.function id) ∧
      ∀ source ∈ sources, r'.module.HoldsPhis source :=
  each_forM (Q := fun source m => m.HoldsPhis source) (fun _ _ _ => holds_buildFunction)
    (fun _ _ _ hstrings hfunction hholds => hholds.of_moreStrings hstrings hfunction) hnodup hs hh hawaits h

end Reader

/-! ## Texts -/

namespace Module

/-- Reading two texts that are the same but for the order of the pairs of some phis: both are refused, or the modules
differ in the numbers of values for constants and addresses only. -/
theorem agree_parse {text text' : String} (h : Text.Rearranged text text') :
    Outcome.Agree Module.Renumbered (parse text) (parse text') := by
  unfold parse
  refine (Source.agree_tokenLines h).bind fun lines lines' hlines => ?_
  refine (Source.agree_declarations hlines {}).bind_of_ok fun x y hx hy hxy => ?_
  obtain ⟨m, sources⟩ := x
  obtain ⟨m', sources'⟩ := y
  obtain ⟨hm, hsources⟩ := hxy
  obtain rfl : m' = m := hm
  obtain ⟨hnodup, hs, hh, hawaits⟩ := Source.awaits_declarations hx
  exact (Reader.agree_forM (r := { module := m' }) hsources hnodup hs hh hawaits (Source.fits_declarations hy)
    (.refl _ _)).bind fun x y halong => halong.renumbered

/-- The order of the pairs of a phi is irrelevant. When two texts are the same but for the order in which some phis list
their pairs, which name distinct blocks, then both are refused or both are accepted, and the modules differ in the
numbers of values for constants and addresses only. In each module slot by slot a phi holds what the text pairs with the
predecessor of that slot. -/
theorem parse_rearranged {text text' : String} (h : Text.Rearranged text text') :
    ((∃ m, parse text = .ok m) ↔ ∃ m', parse text' = .ok m') ∧
    (∀ m m', parse text = .ok m → parse text' = .ok m' → m.Renumbered m') ∧
    ∀ lines m₀ sources m, Source.tokenLines text = .ok lines → Source.declarations {} lines = .ok (m₀, sources) →
      parse text = .ok m → ∀ source ∈ sources, m.HoldsPhis source := by
  refine ⟨(agree_parse h).exists_ok_iff, fun m m' hm hm' => (agree_parse h).of_ok hm hm', ?_⟩
  intro lines m₀ sources m hlines hdecl hm
  unfold parse at hm
  obtain ⟨_, hlines', h₁⟩ := Outcome.bind_eq_ok.1 hm
  rw [hlines] at hlines'
  cases hlines'
  obtain ⟨_, hdecl', h₂⟩ := Outcome.bind_eq_ok.1 h₁
  rw [hdecl] at hdecl'
  cases hdecl'
  obtain ⟨⟨_, reading⟩, hbuild, hreading⟩ := Outcome.bind_eq_ok.1 h₂
  cases hreading
  obtain ⟨hnodup, hs, hh, hawaits⟩ := Source.awaits_declarations hdecl
  exact (Reader.holds_forM (r := { module := m₀ }) hnodup hs hh hawaits hbuild).2.2

/-- A text with a phi in a block that one of its two predecessors enters twice. -/
def joinText (pairs : String) : String :=
  "func @f(%c) -> int \x7b\nentry:\n br %c, ^j, ^a\na:\n br %c, ^j, ^j\nj:\n %p = phi " ++ pairs ++ "\n ret %p\n\x7d"

/-- Its body as it is written. -/
def joinBody (pairs : List (String × SourceOperand)) : FunctionSource where
  id := 0
  line := 1
  params := ["c"]
  blocks := [
    { name := "entry", line := 2, statements := [⟨3, none, .branch (.localName "c") "j" "a"⟩] },
    { name := "a", line := 4, statements := [⟨5, none, .branch (.localName "c") "j" "j"⟩] },
    { name := "j", line := 6, statements := [⟨7, some "p", .phi pairs⟩, ⟨8, none, .ret (some (.localName "p"))⟩] }]

/-- The pairs of the phi may be listed in either order. -/
theorem rearranged_joinText : Text.Rearranged (joinText "[^entry, 1], [^a, 2]") (joinText "[^a, 2], [^entry, 1]") := by
  have hlines : Text.lines (joinText "[^entry, 1], [^a, 2]") = ["func @f(%c) -> int \x7b", "entry:", " br %c, ^j, ^a", "a:",
      " br %c, ^j, ^j", "j:", " %p = phi [^entry, 1], [^a, 2]", " ret %p", "\x7d"] := by with_unfolding_all rfl
  have hlines' : Text.lines (joinText "[^a, 2], [^entry, 1]") = ["func @f(%c) -> int \x7b", "entry:", " br %c, ^j, ^a",
      "a:", " br %c, ^j, ^j", "j:", " %p = phi [^a, 2], [^entry, 1]", " ret %p", "\x7d"] := by with_unfolding_all rfl
  have hphi : Text.PhiLine " %p = phi [^entry, 1], [^a, 2]" (some "p") [("entry", .int 1), ("a", .int 2)] :=
    ⟨[.localName "p", .punct '=', .ident "phi", .punct '[', .block "entry", .punct ',', .int 1, .punct ']', .punct ',',
      .punct '[', .block "a", .punct ',', .int 2, .punct ']'], by cbv, fun _ => rfl⟩
  have hphi' : Text.PhiLine " %p = phi [^a, 2], [^entry, 1]" (some "p") [("a", .int 2), ("entry", .int 1)] :=
    ⟨[.localName "p", .punct '=', .ident "phi", .punct '[', .block "a", .punct ',', .int 2, .punct ']', .punct ',',
      .punct '[', .block "entry", .punct ',', .int 1, .punct ']'], by cbv, fun _ => rfl⟩
  unfold Text.Rearranged
  rw [hlines, hlines']
  exact .cons (.same _) (.cons (.same _) (.cons (.same _) (.cons (.same _) (.cons (.same _) (.cons (.same _)
    (.cons (.phi hphi hphi' (.swap ..) (by decide)) (.cons (.same _) (.cons (.same _) .nil))))))))

/-- The predecessors of the last block are the first block and, twice, the second one. The phi reads the constant of the
first one and, twice, that of the second one; the constants have the numbers in which they are listed. -/
theorem parse_rearranged_joinText : ∃ m m', parse (joinText "[^entry, 1], [^a, 2]") = .ok m ∧
    parse (joinText "[^a, 2], [^entry, 1]") = .ok m' ∧ m.Renumbered m' ∧
    m.HoldsPhis (joinBody [("entry", .int 1), ("a", .int 2)]) ∧
    (m.function 0).preds 2 = [0, 1, 1] ∧ (m.function 0).operands 0 = [2, 3, 3] ∧ (m'.function 0).operands 0 = [3, 2, 2] := by
  have hrun : (parse (joinText "[^entry, 1], [^a, 2]") >>= fun m =>
      pure ((m.function 0).preds 2, (m.function 0).operands 0)) = .ok ([0, 1, 1], [2, 3, 3]) := by
    unfold joinText
    cbv
  have hrun' : (parse (joinText "[^a, 2], [^entry, 1]") >>= fun m => pure ((m.function 0).operands 0)) = .ok [3, 2, 2] := by
    unfold joinText
    cbv
  have hbodies : (do Source.declarations {} (← Source.tokenLines (joinText "[^entry, 1], [^a, 2]"))) =
      .ok ({ functions := #[Function.new "f" 1 true] }, [joinBody [("entry", .int 1), ("a", .int 2)]]) := by
    unfold joinText
    cbv
  obtain ⟨m, hm, hslots⟩ := Outcome.bind_eq_ok.1 hrun
  obtain ⟨m', hm', hslots'⟩ := Outcome.bind_eq_ok.1 hrun'
  obtain ⟨lines, hlines, hdecl⟩ := Outcome.bind_eq_ok.1 hbodies
  obtain ⟨-, hrenumbered, hholds⟩ := parse_rearranged rearranged_joinText
  refine ⟨m, m', hm, hm', hrenumbered m m' hm hm', hholds lines _ _ m hlines hdecl hm _ (List.mem_singleton.2 rfl), ?_⟩
  have hslots := Prod.mk.inj (Except.ok.inj hslots)
  exact ⟨hslots.1, hslots.2, Except.ok.inj hslots'⟩

end Module

end SsaCompiler
