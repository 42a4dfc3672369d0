import SsaCompiler.Proofs.Text.BodyFaults

/-!
# Forward references

Blocks may name values and blocks that are defined further below. A body is built in whatever order its blocks stand
behind the first one, if its code is strict: what a statement reads is a parameter, or it is defined further up in the
block or in a block that dominates it. For among the blocks that are left at any time there is one whose strict
dominators are all built: on the way to any block that is left, either such a block is met, or every block that is left
can be avoided (`exists_ready_or_avoids`).
-/

set_option autoImplicit false

namespace SsaCompiler

open Edits Stateful

variable {b : String}

variable {a : String}

namespace FunctionSource

/-! ## Paths between blocks -/

/-- A path leads from the first block to a block. -/
inductive Reach (source : FunctionSource) : String → Prop
  | entry {b : BlockSource} : source.blocks.head? = some b → Reach source b.name
  | step {p t : String} : Reach source p → source.Edge p t → Reach source t

/-- A path from the first block leads to the block without coming through another one. -/
inductive Avoids (source : FunctionSource) (a : String) : String → Prop
  | entry {b : BlockSource} : source.blocks.head? = some b → b.name ≠ a → Avoids source a b.name
  | step {p t : String} : Avoids source a p → source.Edge p t → t ≠ a → Avoids source a t

/-- Every path from the first block to the second of two blocks comes through the first of them. -/
def Dominates (source : FunctionSource) (a b : String) : Prop := ¬ source.Avoids a b

variable {source : FunctionSource}

/-- A path that avoids a block does not end there. -/
theorem Avoids.ne (h : source.Avoids a b) : b ≠ a := by
  cases h with
  | entry _ hne => exact hne
  | step _ _ hne => exact hne

/-- On the way to a block, some block of a list is met whose strict dominators are not in the list, or all blocks of the
list can be avoided. -/
theorem exists_ready_or_avoids (left : List String) (h : source.Reach b) :
    (∃ c ∈ left, ∀ a ∈ left, a ≠ c → ¬ source.Dominates a c) ∨ ∀ a ∈ left, source.Avoids a b := by
  induction h with
  | @entry first hfirst =>
    by_cases hin : first.name ∈ left
    · exact .inl ⟨first.name, hin, fun a _ hne hdominates => hdominates (.entry hfirst hne.symm)⟩
    · exact .inr fun a ha => .entry hfirst fun heq => hin (heq ▸ ha)
  | @step p t _ hedge ih =>
    rcases ih with hfound | havoids
    · exact .inl hfound
    · by_cases hin : t ∈ left
      · exact .inl ⟨t, hin, fun a ha hne hdominates => hdominates ((havoids a ha).step hedge hne.symm)⟩
      · exact .inr fun a ha => (havoids a ha).step hedge fun heq => hin (heq ▸ ha)

/-- Some block of a list has no strict dominator in the list. -/
theorem exists_undominated {left : List String} (hb : b ∈ left) (h : source.Reach b) :
    ∃ c ∈ left, ∀ a ∈ left, a ≠ c → ¬ source.Dominates a c :=
  (exists_ready_or_avoids left h).resolve_right fun havoids => (havoids b hb).ne rfl

end FunctionSource

/-! ## Strict bodies -/

/-- An operation that agrees with the declarations of a module and with the function in which it stands. -/
@[mk_iff]
structure SourceOp.Agrees (m : Module) (returns named : Bool) (op : SourceOp) : Prop where
  symbols : ∀ name, .symbol name ∈ op.operands → ¬ m.Free name
  call : ∀ callee args, op = .call callee args → ∃ gives, m.signature? callee = some (args.length, gives) ∧
    (named = true → gives = true)
  ret : ∀ value, op = .ret value → value.isSome = returns

namespace FunctionSource

/-- A body in strict form that fits its module. -/
structure Strict (m : Module) (source : FunctionSource) : Prop where
  formed : ∀ b ∈ source.blocks, b.Formed
  labels : source.labels.Nodup
  definitions : source.definitions.Nodup
  reach : ∀ b ∈ source.blocks, source.Reach b.name
  agrees : ∀ b ∈ source.blocks, ∀ s ∈ b.statements,
    s.op.Agrees m (m.function source.id).returnsValue s.result.isSome
  /-- A phi names the predecessors of its block, and it reads values that are defined somewhere. -/
  phis : ∀ b ∈ source.blocks, ∀ s ∈ b.statements, ∀ pairs, s.op = .phi pairs →
    (∀ p, p ∈ pairs.map Prod.fst ↔ source.Edge p b.name) ∧
    ∀ name, .localName name ∈ pairs.map Prod.snd → name ∈ source.definitions
  /-- What a statement reads is defined before on every path. -/
  defined : ∀ b ∈ source.blocks, ∀ before s after, b.statements = before ++ s :: after → s.op.isPhi = false →
    ∀ name, .localName name ∈ s.op.operands → name ∈ source.params ∨ name ∈ Statement.results before ∨
      ∃ d ∈ source.blocks, d.name ≠ b.name ∧ source.Dominates d.name b.name ∧ name ∈ Statement.results d.statements

variable {m : Module} {source source' : FunctionSource}

/-! ## Other orders of the blocks -/

/-- A body with the blocks behind the first one in another order. -/
structure Reordered (source source' : FunctionSource) : Prop where
  id : source'.id = source.id
  params : source'.params = source.params
  head : source'.blocks.head? = source.blocks.head?
  perm : source'.blocks.Perm source.blocks

namespace Reordered

variable (h : Reordered source source')

include h

theorem symm : Reordered source' source := ⟨h.id.symm, h.params.symm, h.head.symm, h.perm.symm⟩

theorem labels_perm : source'.labels.Perm source.labels := h.perm.map _

theorem definitions_perm : source'.definitions.Perm source.definitions := by
  unfold definitions
  rw [h.params]
  exact (h.perm.flatMap_right _).append_left _

theorem edge_iff (p t : String) : source'.Edge p t ↔ source.Edge p t :=
  exists_congr fun _ => and_congr_left' h.perm.mem_iff

theorem reach (hreach : source.Reach b) : source'.Reach b := by
  induction hreach with
  | entry hfirst => exact .entry (h.head.trans hfirst)
  | step _ hedge ih => exact ih.step ((h.edge_iff _ _).2 hedge)

theorem avoids (havoids : source.Avoids a b) : source'.Avoids a b := by
  induction havoids with
  | entry hfirst hne => exact .entry (h.head.trans hfirst) hne
  | step _ hedge hne ih => exact ih.step ((h.edge_iff _ _).2 hedge) hne

/-- The order of the blocks does not matter for strictness. -/
theorem strict (hstrict : source.Strict m) : source'.Strict m where
  formed b hb := hstrict.formed b (h.perm.mem_iff.1 hb)
  labels := h.labels_perm.nodup_iff.2 hstrict.labels
  definitions := h.definitions_perm.nodup_iff.2 hstrict.definitions
  reach b hb := h.reach (hstrict.reach b (h.perm.mem_iff.1 hb))
  agrees b hb := h.id ▸ hstrict.agrees b (h.perm.mem_iff.1 hb)
  phis b hb s hs pairs hop := by
    obtain ⟨hedges, hvalues⟩ := hstrict.phis b (h.perm.mem_iff.1 hb) s hs pairs hop
    exact ⟨fun p => (hedges p).trans (h.edge_iff p b.name).symm,
      fun name hname => h.definitions_perm.mem_iff.2 (hvalues name hname)⟩
  defined b hb before s after hsplit hphi name hname := by
    rcases hstrict.defined b (h.perm.mem_iff.1 hb) before s after hsplit hphi name hname with hparam | hbefore | hblock
    · exact .inl (h.params ▸ hparam)
    · exact .inr (.inl hbefore)
    · obtain ⟨d, hd, hne, hdominates, hresult⟩ := hblock
      exact .inr (.inr ⟨d, h.perm.mem_iff.2 hd, hne, fun havoids => hdominates (h.symm.avoids havoids), hresult⟩)

end Reordered

/-! ## Some block is ready -/

/-- A list of statements reads known names only, if each of them reads what is known or defined further up. -/
theorem unknownOperand?_eq_none {known : List String} {statements : List Statement}
    (h : ∀ before s after, statements = before ++ s :: after → s.op.isPhi = false →
      ∀ name, .localName name ∈ s.op.operands → name ∈ known ∨ name ∈ Statement.results (before.filter fun s => !s.op.isPhi)) :
    Reader.unknownOperand? known statements = none := by
  induction statements generalizing known with
  | nil => rfl
  | cons s rest ih =>
    cases hphi : s.op.isPhi with
    | true =>
      rw [Reader.unknownOperand?, if_pos hphi]
      refine ih fun before t after hsplit ht name hname => ?_
      have hbefore := h (s :: before) t after (by rw [hsplit]; rfl) ht name hname
      rwa [List.filter_cons_of_neg (by rw [hphi]; exact Bool.false_ne_true)] at hbefore
    | false =>
      refine (Reader.unknownOperand?_cons_eq_none hphi).2 ⟨fun name hname => ?_, ih fun before t after hsplit ht name hname => ?_⟩
      · exact (h [] s rest rfl hphi name hname).resolve_right List.not_mem_nil
      · have hbefore := h (s :: before) t after (by rw [hsplit]; rfl) ht name hname
        rw [List.filter_cons_of_pos (by rw [hphi]; rfl), Statement.results_cons] at hbefore
        rcases hbefore with hknown | hbefore
        · exact .inl (List.mem_append_right _ hknown)
        · exact (List.mem_append.1 hbefore).imp (fun hs => List.mem_append_left _ hs) fun hrest => hrest

variable {done : List BlockSource}

/-- What a block of a strict body reads is known when its strict dominators are built. -/
theorem Strict.ready (h : source.Strict m) {b : BlockSource} (hb : b ∈ source.blocks)
    (hdone : ∀ d ∈ source.blocks, d.name ≠ b.name → source.Dominates d.name b.name → d ∈ done) :
    Reader.unknownOperand? (source.known done) b.statements = none := by
  have hphis : ∀ d ∈ source.blocks, ∀ name ∈ Statement.results d.phis, name ∈ source.known done := fun d hd name hname =>
    List.mem_append_left _ (List.mem_append_right _ (List.mem_flatMap.2 ⟨d, hd, hname⟩))
  refine unknownOperand?_eq_none fun before s after hsplit hphi name hname => ?_
  rcases h.defined b hb before s after hsplit hphi name hname with hparam | hbefore | ⟨d, hd, hne, hdominates, hresult⟩
  · exact .inl (List.mem_append_left _ (List.mem_append_left _ hparam))
  · -- an earlier statement is a phi of the block or code
    obtain ⟨t, ht, hresult⟩ := List.mem_filterMap.1 hbefore
    cases htphi : t.op.isPhi with
    | true =>
      refine .inl (hphis b hb name (List.mem_filterMap.2 ⟨t, List.mem_filter.2 ⟨?_, htphi⟩, hresult⟩))
      exact hsplit ▸ List.mem_append_left _ ht
    | false => exact .inr (List.mem_filterMap.2 ⟨t, List.mem_filter.2 ⟨ht, by rw [htphi]; rfl⟩, hresult⟩)
  · refine .inl ?_
    rcases List.mem_append.1 ((results_perm d).mem_iff.2 hresult) with hphi | hcode
    · exact hphis d hd name hphi
    · exact List.mem_append_right _ (List.mem_flatMap.2 ⟨d, hdone d hd hne hdominates, hcode⟩)

/-- Some block that is left can be built. -/
theorem Strict.exists_ready (h : source.Strict m) {left : List BlockSource}
    (hparts : (done ++ left).Perm source.blocks) {b : BlockSource} (hb : b ∈ left) :
    ∃ c ∈ left, Reader.unknownOperand? (source.known done) c.statements = none := by
  have hleft : ∀ b ∈ left, b ∈ source.blocks := fun b hb => hparts.mem_iff.1 (List.mem_append_right _ hb)
  obtain ⟨name, hname, hundominated⟩ := exists_undominated (List.mem_map.2 ⟨b, hb, rfl⟩) (h.reach b (hleft b hb))
  obtain ⟨c, hc, rfl⟩ := List.mem_map.1 hname
  refine ⟨c, hc, h.ready (hleft c hc) fun d hd hne hdominates => ?_⟩
  refine (List.mem_append.1 (hparts.mem_iff.2 hd)).resolve_right fun hin => ?_
  exact hundominated d.name (List.mem_map.2 ⟨d, hin, rfl⟩) hne hdominates

theorem Strict.fault (h : source.Strict m) {line : Nat} {fault : TextFault} (hfault : source.Fault m line fault) :
    ∃ b ∈ source.blocks, ∃ s ∈ b.statements, ∃ name ∈ s.op.targets, name ∉ source.labels ∧
      line = s.line ∧ fault = .unknownBlock name := by
  have honce : ∀ {name : String} {names : List String}, names.Nodup → ¬ 2 ≤ names.count name := fun hnodup =>
    Nat.not_le_of_lt (Nat.lt_succ_of_le (List.nodup_iff_count_le_one.1 hnodup _))
  cases hfault with
  | param _ htwice => exact absurd htwice (honce h.definitions)
  | value _ _ _ htwice => exact absurd htwice (honce h.definitions)
  | block _ htwice => exact absurd htwice (honce h.labels)
  | @op b s _ hb hs hop =>
    have hagrees := h.agrees b hb s hs
    cases hop with
    | symbol hmem hfree => exact absurd hfree (hagrees.symbols _ hmem)
    | @block name hmem hnot => exact ⟨b, hb, s, hs, name, hmem, hnot, rfl, rfl⟩
    | callee hop hnone =>
      obtain ⟨gives, hsignature, -⟩ := hagrees.call _ _ hop
      rw [hnone] at hsignature
      cases hsignature
    | arity hop hsome hne =>
      obtain ⟨gives, hsignature, -⟩ := hagrees.call _ _ hop
      rw [hsome] at hsignature
      cases hsignature
      exact absurd rfl hne
    | voidCall hop hsome hnamed =>
      obtain ⟨gives, hsignature, hgives⟩ := hagrees.call _ _ hop
      rw [hsome] at hsignature
      cases hsignature
      cases hgives hnamed
    | voidReturn hop hvoid => exact absurd (hagrees.ret _ hop) (by rw [hvoid]; exact Bool.true_eq_false_eq_False)
    | missingReturn hop hvalue => exact absurd (hagrees.ret _ hop) (by rw [hvalue]; exact Bool.false_ne_true)
  | stuck hparts hstuck hb _ =>
    obtain ⟨c, hc, hready⟩ := h.exists_ready hparts hb
    exact absurd hready (hstuck c hc)
  | @phiSource b s pairs name hb hs hop hmem hnot =>
    obtain ⟨d, hd, rfl, -⟩ := ((h.phis b hb s hs pairs hop).1 name).1 hmem
    exact absurd (List.mem_map.2 ⟨d, hd, rfl⟩) hnot
  | notAPredecessor hb hs hop hmem hnot => exact absurd (((h.phis _ hb _ hs _ hop).1 _).1 hmem) hnot
  | phiValue hb hs hop hmem hnot => exact absurd ((h.phis _ hb _ hs _ hop).2 _ hmem) hnot
  | missing hb hs hop hedge hnot => exact absurd (((h.phis _ hb _ hs _ hop).1 _).2 hedge) hnot

/-- A strict body is built whatever order its blocks have behind the first one, if it leads to blocks that it has. If it
does not, building fails at such a target, and it never fails at a value. -/
theorem Strict.builds_in_any_order {r : Reading} (hdeclared : source.Declared r.module) (hstrict : source.Strict r.module)
    {first : BlockSource} {rest rest' : List BlockSource} (hblocks : source.blocks = first :: rest)
    (horder : rest'.Perm rest) :
    (∀ e, (Reader.buildFunction { source with blocks := first :: rest' }).run r = .error e →
      ∃ b ∈ source.blocks, ∃ s ∈ b.statements, ∃ name ∈ s.op.targets, name ∉ source.labels ∧
        e = .error (.parse s.line (.unknownBlock name))) ∧
    ((∀ b ∈ source.blocks, ∀ s ∈ b.statements, ∀ name ∈ s.op.targets, name ∈ source.labels) →
      ∃ r', (Reader.buildFunction { source with blocks := first :: rest' }).run r = .ok ((), r')) := by
  have hreordered : Reordered source { source with blocks := first :: rest' } :=
    ⟨rfl, rfl, by rw [hblocks]; rfl, hblocks ▸ horder.cons first⟩
  have hstrict' := hreordered.strict hstrict
  have hdeclared' : ({ source with blocks := first :: rest' } : FunctionSource).Declared r.module :=
    ⟨hdeclared.id_lt, hdeclared.blank⟩
  have hfails : ((Reader.buildFunction { source with blocks := first :: rest' }).run r).FailsOnly fun e =>
      ∃ b ∈ source.blocks, ∃ s ∈ b.statements, ∃ name ∈ s.op.targets, name ∉ source.labels ∧
        e = .error (.parse s.line (.unknownBlock name)) :=
    (hdeclared'.meets_buildFunction hstrict'.formed fun line fault hfault => by
      obtain ⟨b, hb, s, hs, name, hname, hnot, rfl, rfl⟩ := hstrict'.fault hfault
      exact ⟨b, hreordered.perm.mem_iff.1 hb, s, hs, name, hname,
        fun hin => hnot (hreordered.labels_perm.mem_iff.2 hin), rfl⟩).failsOnly
  refine ⟨hfails, fun htargets => ?_⟩
  cases hrun : (Reader.buildFunction { source with blocks := first :: rest' }).run r with
  | ok result => exact ⟨result.2, rfl⟩
  | error e =>
    obtain ⟨b, hb, s, hs, name, hname, hnot, -⟩ := hfails e hrun
    exact absurd (htargets b hb s hs name hname) hnot

/-- A loop whose body is written before the head that defines what the body reads. -/
def countedLoop : FunctionSource where
  id := 0
  line := 1
  params := ["a"]
  blocks := [
    { name := "entry", line := 2, statements := [⟨3, none, .jump "head"⟩] },
    { name := "body", line := 4, statements := [
      ⟨5, some "m", .binary .add (.localName "n") (.int 1)⟩,
      ⟨6, none, .jump "head"⟩] },
    { name := "head", line := 7, statements := [
      ⟨8, some "i", .phi [("entry", .localName "a"), ("body", .localName "m")]⟩,
      ⟨9, some "n", .binary .add (.localName "i") (.int 1)⟩,
      ⟨10, some "c", .binary .lt (.localName "n") (.int 10)⟩,
      ⟨11, none, .branch (.localName "c") "body" "exit"⟩] },
    { name := "exit", line := 12, statements := [⟨13, none, .ret (some (.localName "n"))⟩] }]

/-- A module that declares the function of the loop. -/
def countedLoopModule : Module := { functions := #[Function.new "f" 1 true] }

theorem edge_countedLoop (p t : String) : countedLoop.Edge p t ↔
    (p = "entry" ∨ p = "body") ∧ t = "head" ∨ p = "head" ∧ (t = "body" ∨ t = "exit") := by
  simp only [Edge, countedLoop, BlockSource.targets, BlockSource.code, List.mem_cons, List.not_mem_nil, or_false,
    exists_eq_or_imp, exists_eq_left]
  simp [SourceOp.isPhi, SourceOp.targets, eq_comm]
  tauto

theorem strict_countedLoop : countedLoop.Strict countedLoopModule := by
  have hentry : countedLoop.Reach "entry" := @Reach.entry countedLoop countedLoop.blocks[0] rfl
  have hhead : countedLoop.Reach "head" := hentry.step ((edge_countedLoop _ _).2 (by decide))
  have hbody : countedLoop.Reach "body" := hhead.step ((edge_countedLoop _ _).2 (by decide))
  have hexit : countedLoop.Reach "exit" := hhead.step ((edge_countedLoop _ _).2 (by decide))
  -- without the head there is no way past the entry
  have honly : ∀ t, countedLoop.Avoids "head" t → t = "entry" := by
    intro t h
    induction h with
    | entry hfirst _ =>
      cases hfirst
      rfl
    | step _ hedge hne ih =>
      rw [edge_countedLoop, ih] at hedge
      simp_all
  -- so the head dominates the other blocks, and it defines the name that they read
  have hfar : ∀ b : String, b ≠ "entry" → b ≠ "head" → "n" ∈ countedLoop.params ∨ "n" ∈ Statement.results [] ∨
      ∃ d ∈ countedLoop.blocks, d.name ≠ b ∧ countedLoop.Dominates d.name b ∧ "n" ∈ Statement.results d.statements :=
    fun b hentry hhead => .inr (.inr ⟨countedLoop.blocks[2], List.getElem_mem _, hhead.symm,
      fun havoids => hentry (honly b havoids), by decide⟩)
  have hdefinitions : countedLoop.definitions = ["a", "m", "i", "n", "c"] := by decide
  refine ⟨?_, by decide, by decide, ?_, ?_, ?_, ?_⟩ <;> intro b hb <;>
    simp only [countedLoop, List.mem_cons, List.not_mem_nil, or_false] at hb <;> rcases hb with rfl | rfl | rfl | rfl
  · exact ⟨by simp [Statement.formed_iff, SourceOp.Fits], rfl, by simp⟩
  · exact ⟨by simp [Statement.formed_iff, SourceOp.Fits, SourceOp.producesValue], rfl, by simp [SourceOp.isTerminator]⟩
  · exact ⟨by simp [Statement.formed_iff, SourceOp.Fits, SourceOp.producesValue], rfl, by simp [SourceOp.isTerminator]⟩
  · exact ⟨by simp [Statement.formed_iff, SourceOp.Fits], rfl, by simp⟩
  · exact hentry
  · exact hbody
  · exact hhead
  · exact hexit
  · simp [SourceOp.agrees_iff, SourceOp.operands]
  · simp [SourceOp.agrees_iff, SourceOp.operands]
  · simp [SourceOp.agrees_iff, SourceOp.operands]
  · simp [SourceOp.agrees_iff, SourceOp.operands]
    rfl
  · simp
  · simp
  · simp only [List.forall_mem_cons]
    simp [edge_countedLoop, hdefinitions]
    grind
  · simp
  · intro before s after hsplit
    rcases before with _ | ⟨x, before⟩ <;> simp at hsplit
    obtain ⟨rfl, rfl⟩ := hsplit
    simp [SourceOp.operands]
  · intro before s after hsplit
    rcases before with _ | ⟨x, _ | ⟨y, before⟩⟩ <;> simp at hsplit
    · obtain ⟨rfl, rfl⟩ := hsplit
      simpa [SourceOp.operands] using fun _ => hfar "body" (by decide) (by decide)
    · obtain ⟨rfl, rfl, rfl⟩ := hsplit
      simp [SourceOp.operands]
  · intro before s after hsplit
    rcases before with _ | ⟨x, _ | ⟨y, _ | ⟨z, _ | ⟨w, before⟩⟩⟩⟩ <;> simp at hsplit
    · obtain ⟨rfl, rfl⟩ := hsplit
      simp [SourceOp.isPhi]
    · obtain ⟨rfl, rfl, rfl⟩ := hsplit
      simp [SourceOp.operands, Statement.results]
    · obtain ⟨rfl, rfl, rfl, rfl⟩ := hsplit
      simp [SourceOp.operands, Statement.results]
    · obtain ⟨rfl, rfl, rfl, rfl, rfl⟩ := hsplit
      simp [SourceOp.operands, Statement.results]
  · intro before s after hsplit
    rcases before with _ | ⟨x, before⟩ <;> simp at hsplit
    obtain ⟨rfl, rfl⟩ := hsplit
    simpa [SourceOp.operands] using fun _ => hfar "exit" (by decide) (by decide)

/-- The loop is built with its blocks in another order, too. -/
theorem Strict.builds_in_any_order_countedLoop : ∃ r', (Reader.buildFunction { countedLoop with blocks :=
    countedLoop.blocks[0] :: [countedLoop.blocks[3], countedLoop.blocks[1], countedLoop.blocks[2]] }).run
      { module := countedLoopModule } = .ok ((), r') :=
  (Strict.builds_in_any_order (r := { module := countedLoopModule }) ⟨by decide, "f", true, rfl⟩ strict_countedLoop rfl
    (@List.perm_append_comm _ [countedLoop.blocks[3]] [countedLoop.blocks[1], countedLoop.blocks[2]])).2 (by decide)

/-- A body that leads to a block that it does not have. -/
def jumpNowhere : FunctionSource where
  id := 0
  line := 1
  params := []
  blocks := [{ name := "entry", line := 2, statements := [⟨3, none, .jump "nowhere"⟩] }]

/-- A module that declares the function of the body. -/
def jumpNowhereModule : Module := { functions := #[Function.new "f" 0 false] }

theorem strict_jumpNowhere : jumpNowhere.Strict jumpNowhereModule := by
  refine ⟨?_, by decide, by decide, ?_, ?_, ?_, ?_⟩ <;> intro b hb <;>
    simp only [jumpNowhere, List.mem_cons, List.not_mem_nil, or_false] at hb <;> subst hb
  · exact ⟨by simp [Statement.formed_iff, SourceOp.Fits], rfl, by simp⟩
  · exact @Reach.entry jumpNowhere jumpNowhere.blocks[0] rfl
  · simp [SourceOp.agrees_iff, SourceOp.operands]
  · simp
  · intro before s after hsplit
    rcases before with _ | ⟨x, before⟩ <;> simp at hsplit
    obtain ⟨rfl, rfl⟩ := hsplit
    simp [SourceOp.operands]

/-- A strict body that is read from a text and not built. -/
theorem not_built_jumpNowhere :
    (do Source.declarations {} (← Source.tokenLines "func @f() -> void \x7b\nentry:\n  jump ^nowhere\n\x7d\n")) =
      .ok (jumpNowhereModule, [jumpNowhere]) ∧
    jumpNowhere.Declared jumpNowhereModule ∧ jumpNowhere.Strict jumpNowhereModule ∧
    (Reader.buildFunction jumpNowhere).run { module := jumpNowhereModule } =
      .error (.error (.parse 3 (.unknownBlock "nowhere"))) :=
  ⟨by cbv, ⟨by decide, "f", false, rfl⟩, strict_jumpNowhere, by rfl⟩

end FunctionSource

end SsaCompiler
