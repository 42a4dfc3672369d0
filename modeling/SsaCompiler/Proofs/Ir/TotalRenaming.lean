import SsaCompiler.Proofs.Ir.RenamedSlots
import SsaCompiler.Proofs.Ir.SuccessfulEdits

/-!
# The walk over slot values succeeds

The walk that carries slot values from block to block asks only for what is there. A load that it passes has a result,
and as the values of the slots are clean it is exchanged for another value; a store gives nothing that could be read;
and an added phi has a slot for each edge into its block.
-/

set_option autoImplicit false

namespace SsaCompiler

namespace SlotPlan

open Edits
open SsaCompiler.Edit (succeeds_ask_bind exists_operand resultOf_of_result lt_size_of_mem_operands succeeds_setOperand
  stable_tidy)
open SsaCompiler.Function (result_of_resultOf)

variable {plan : SlotPlan} {f f₁ c c' : Function} {new : BlockId → List InstId} {entries : List (InstId × Nat)}
  {done : List InstId} {fill : BlockId → Nat → ValueId} {b : BlockId} {before after : List InstId} {i : InstId}
  {cur : Edit.SlotValues}

/-! ## Instructions -/

/-- What the values of the slots become is in the function. -/
theorem bounded_renameInst {cur' : Edit.SlotValues} {addresses : List ValueId} (hs : c.Sound)
    (hcur : ∀ v ∈ cur, v < c.values.size)
    (hrun : (Edit.renameInst addresses entries cur i).run c = (.ok cur', c')) : ∀ v ∈ cur', v < c.values.size := by
  have hset : ∀ {k v}, v < c.values.size → ∀ w ∈ cur.set k v, w < c.values.size := by
    intro k v hv w hw
    rcases List.mem_or_eq_of_mem_set hw with hw | rfl
    · exact hcur w hw
    · exact hv
  unfold Edit.renameInst at hrun
  have hrun := of_get_bind hrun
  split at hrun
  · split at hrun
    · obtain ⟨r, hresult, hrun⟩ := Edit.ask_bind_eq_ok hrun
      cases hrun
      exact hset (hs.kind_of_result i r (result_of_resultOf hresult)).1
    · cases hrun
      exact hcur
  · obtain ⟨base, -, hrun⟩ := Edit.ask_bind_eq_ok hrun
    split at hrun
    · obtain ⟨r, c₀, -, hrun⟩ := bind_eq_ok hrun
      obtain ⟨count, c₁, -, hrun⟩ := bind_eq_ok hrun
      obtain ⟨⟨⟩, c₂, -, hrun⟩ := bind_eq_ok hrun
      cases hrun
      exact hcur
    · cases hrun
      exact hcur
  · obtain ⟨base, -, hrun⟩ := Edit.ask_bind_eq_ok hrun
    split at hrun
    · obtain ⟨data, hdata, hrun⟩ := Edit.ask_bind_eq_ok hrun
      obtain ⟨⟨⟩, c₁, -, hrun⟩ := bind_eq_ok hrun
      cases hrun
      exact hset (lt_size_of_mem_operands hs.indexed (List.mem_of_getElem? (Edit.operand_eq_ok hdata)))
    · cases hrun
      exact hcur
  · cases hrun
    exact hcur

namespace Renaming

section

variable (h : plan.Renaming f f₁ c new done fill)

include h

/-- An instruction that was not passed is still in its block. -/
theorem mem_insts (hi : i ∈ f.instsOf b) (hnot : i ∉ done) : i ∈ c.instsOf b := by
  rw [← f.phis_append b] at hi
  rw [h.reshaped.insts]
  rcases List.mem_append.1 hi with hi | hi
  · exact List.mem_append_left _ (List.mem_append_left _ hi)
  · refine List.mem_append_right _ (List.mem_filter.2 ⟨hi, ?_⟩)
    simp [hnot]

/-- Exchanging a load for the value of its slot succeeds. -/
theorem succeeds_load (hi : i ∈ f.instsOf b) (hnot : i ∉ done) (hs : f.Sound) {r w : ValueId}
    (hloads : plan.Loads f i r) (hw : plan.Clean f w) (hbound : w < c.values.size) :
    Succeeds (do
      let _ ← Edit.replaceAllUses r w
      Edit.removeInst i
      return cur) c := by
  have hlt := hs.lt_insts_size hi
  have hresult : c.result? i = some r := (h.reshaped.result i hlt).trans hloads.2.2
  have hne : r ≠ w := by
    rintro rfl
    exact hw.2 i hloads
  refine .bind (Edit.succeeds_replaceAllUses h.reshaped.sound.indexed
    (h.reshaped.sound.kind_of_result i r hresult).1 hbound) fun count c₀ hreplace => ?_
  obtain ⟨h₀, halike, hoperands⟩ := h.reshaped.replaceAllUses hne hreplace
  have hin := h.mem_insts hi hnot
  rw [h.reshaped.insts, ← h₀.insts] at hin
  refine .bind (Edit.succeeds_removeInst_of_sound h₀.sound hin fun r' hr' j hj => ?_) fun _ _ _ => .pure _ _
  -- All slots that held the result hold the value of the slot now.
  obtain rfl : r = r' := Option.some.inj (hresult.symm.trans ((halike.result i).symm.trans hr'))
  rw [hoperands] at hj
  obtain ⟨v, -, hv⟩ := List.mem_map.1 hj
  unfold Edit.substituted at hv
  split at hv
  · exact hne hv.symm
  · exact absurd hv ‹_›

/-- Passing an instruction behind the phis succeeds. -/
theorem succeeds_inst (hp : plan.Prepared f f₁ new entries) (ht : c.Tidy) (hreach : f.Reach b)
    (hinsts : f.instsOf b = before ++ i :: after) (hbefore : ∀ j ∈ before, j ∈ done) (hnot : i ∉ done)
    (hinn : ∀ k, k < plan.slots.length → plan.Clean f (plan.inn b k)) (hphi : (f.kind i).isPhi = false)
    (hcur : Holds plan.slots.length cur (plan.current f b before)) (hbound : ∀ v ∈ cur, v < c.values.size) :
    Succeeds (Edit.renameInst plan.addresses entries cur i) c := by
  have hin : i ∈ f.instsOf b := by rw [hinsts]; simp
  have hlt := hp.sound.lt_insts_size hin
  have hin' := h.mem_insts hin hnot
  have hkind := h.reshaped.kind i hlt
  refine .get_bind ?_
  rw [hkind]
  split
  · rename_i hk
    rw [hk] at hphi
    cases hphi
  · rename_i hk
    rw [hk] at hkind
    obtain ⟨base, hbase, -⟩ := exists_operand 0 ht.sound hin' (by rw [hkind]; simp [InstKind.fits])
    refine succeeds_ask_bind hbase ?_
    split
    · rename_i k hslot
      have haccess : plan.accessOf? f i = some k := by
        have hfirst := Edit.operand_eq_ok hbase
        rw [h.operands_eq hlt hnot, List.getElem?_map, Option.map_eq_some_iff] at hfirst
        obtain ⟨v, hv, rfl⟩ := hfirst
        rw [h.carried.idxOf?_stand hp.plain hp.sound] at hslot
        exact accessOf?_eq_some_iff.2 ⟨.inl hk, v, hv, hslot⟩
      have hklt := lt_of_accessOf? haccess
      obtain ⟨r, hr⟩ := Option.ne_none_iff_exists'.1
        (ht.tended.valued i (by rw [(ht.sound.placed b i).1 hin']; simp) (by rw [hkind]; rfl))
      refine succeeds_ask_bind (resultOf_of_result hr) ?_
      have hloads : plan.Loads f i r := ⟨hk, ⟨k, haccess⟩, by rw [← h.reshaped.result i hlt]; exact hr⟩
      refine h.succeeds_load hin hnot hp.sound hloads ?_ ?_
      · rw [hcur.2 k hklt]
        exact h.carried.clean_current hp.plain hreach hinsts hbefore (hinn k hklt)
      · rw [List.getD_eq_getElem _ _ (by rw [hcur.1]; exact hklt)]
        exact hbound _ (List.getElem_mem _)
    · exact .pure _ _
  · rename_i hk
    rw [hk] at hkind
    obtain ⟨base, hbase, -⟩ := exists_operand 0 ht.sound hin' (by rw [hkind]; simp [InstKind.fits])
    refine succeeds_ask_bind hbase ?_
    split
    · obtain ⟨data, hdata, -⟩ := exists_operand 2 ht.sound hin' (by rw [hkind]; simp [InstKind.fits])
      refine succeeds_ask_bind hdata ?_
      refine .bind (Edit.succeeds_removeInst_of_sound ht.sound hin' fun r hr => ?_) fun _ _ _ => .pure _ _
      have hgives := ht.sound.gives i r hr
      rw [hkind] at hgives
      cases hgives
    · exact .pure _ _
  · exact .pure _ _

end

/-- Passing the instructions of a block behind the phis succeeds. -/
theorem succeeds_insts (hp : plan.Prepared f f₁ new entries) (hreach : f.Reach b) {l : List InstId} :
    ∀ {stand : ValueId → ValueId} {c : Function} {done before : List InstId} {cur : Edit.SlotValues},
      SlotPlan.Renaming { plan with stand := stand } f f₁ c new done fill → c.Tidy →
      f.instsOf b = before ++ l → (∀ j ∈ before, j ∈ done) → (∀ j ∈ l, j ∉ done ∧ (f.kind j).isPhi = false) →
      (∀ d, f.Dominates d b → d ≠ b → ∀ j ∈ f.instsOf d, j ∈ done) →
      (∀ k, k < plan.slots.length → plan.Clean f (plan.inn b k)) →
      Holds plan.slots.length cur (SlotPlan.current { plan with stand := stand } f b before) →
      (∀ v ∈ cur, v < f₁.values.size) →
      Succeeds (l.foldlM (Edit.renameInst plan.addresses entries) cur) c ∧
        ∀ cur' c', (l.foldlM (Edit.renameInst plan.addresses entries) cur).run c = (.ok cur', c') →
          ∀ v ∈ cur', v < f₁.values.size := by
  induction l with
  | nil =>
    intro stand c done before cur _ _ _ _ _ _ _ _ hbound
    refine ⟨.pure _ _, fun cur' c' hrun => ?_⟩
    cases hrun
    exact hbound
  | cons i l ih =>
    intro stand c done before cur h ht hinsts hbefore hl hcomplete hinn hcur hbound
    obtain ⟨hnot, hphi⟩ := hl i List.mem_cons_self
    have hp' : SlotPlan.Prepared { plan with stand := stand } f f₁ new entries := hp.withValues stand plan.inn
    have hbound' : ∀ v ∈ cur, v < c.values.size := h.alike.values_size ▸ hbound
    have hnext : ∀ {cur₁ c₁}, (Edit.renameInst plan.addresses entries cur i).run c = (.ok cur₁, c₁) →
        Succeeds (l.foldlM (Edit.renameInst plan.addresses entries) cur₁) c₁ ∧
          ∀ cur' c', (l.foldlM (Edit.renameInst plan.addresses entries) cur₁).run c₁ = (.ok cur', c') →
            ∀ v ∈ cur', v < f₁.values.size := by
      intro cur₁ c₁ hfirst
      obtain ⟨stand₁, h₁, hcur₁, -⟩ := h.inst hp' hreach hinsts hbefore hnot hcomplete hinn hphi hcur hfirst
      have hsteps := step_insts hp.sound hinsts hbefore hl
      refine ih h₁ (stable_tidy.renameInst _ _ _ _ ht hfirst) hsteps.1 hsteps.2.1 hsteps.2.2
        (fun d hd hdb j hj => List.mem_cons_of_mem _ (hcomplete d hd hdb j hj)) hinn hcur₁ ?_
      rw [← h.alike.values_size]
      exact bounded_renameInst ht.sound hbound' hfirst
    rw [List.foldlM_cons]
    refine ⟨.bind (h.succeeds_inst hp' ht hreach hinsts hbefore hnot hinn hphi hcur hbound')
      fun cur₁ c₁ hfirst => (hnext hfirst).1, fun cur' c' hrun => ?_⟩
    obtain ⟨cur₁, c₁, hfirst, hrest⟩ := bind_eq_ok hrun
    exact (hnext hfirst).2 cur' c' hrest

end Renaming

/-! ## Blocks -/

theorem Prepared.succeeds_new (hp : plan.Prepared f f₁ new entries) (halike : f₁.Alike c) (hs : c.Sound)
    (hkind : ∀ phi ∈ new b, c.kind phi = .phi) (hcur : ∀ v ∈ cur, v < c.values.size) :
    Succeeds ((new b).foldlM (Edit.renameInst plan.addresses entries) cur) c ∧
      ∀ cur' c', ((new b).foldlM (Edit.renameInst plan.addresses entries) cur).run c = (.ok cur', c') →
        ∀ v ∈ cur', v < c.values.size := by
  let P := fun (cur : Edit.SlotValues) (_ : List InstId) (g : Function) => g = c ∧ ∀ v ∈ cur, v < c.values.size
  have hkeeps : ∀ cur phi rest g cur' g', (phi :: rest) <:+ new b → P cur (phi :: rest) g →
      (Edit.renameInst plan.addresses entries cur phi).run g = (.ok cur', g') → P cur' rest g' := by
    rintro cur phi rest g cur' g' hsuffix ⟨rfl, hbound⟩ hrun
    refine ⟨?_, bounded_renameInst hs hbound hrun⟩
    unfold Edit.renameInst at hrun
    have hrun := of_get_bind hrun
    rw [hkind phi (hsuffix.subset List.mem_cons_self)] at hrun
    dsimp only at hrun
    split at hrun
    · obtain ⟨r, -, hrun⟩ := Edit.ask_bind_eq_ok hrun
      cases hrun
      rfl
    · cases hrun
      rfl
  refine ⟨.foldlM (P := P) (fun cur phi rest g hsuffix hg =>
    ⟨?_, fun cur' g' hrun => hkeeps cur phi rest g cur' g' hsuffix hg hrun⟩) ⟨rfl, hcur⟩,
    fun cur' c' hrun => (foldlM_keeps hkeeps ⟨rfl, hcur⟩ hrun).2⟩
  obtain ⟨rfl, -⟩ := hg
  have hphi := hsuffix.subset List.mem_cons_self
  obtain ⟨k, r, hk⟩ := hp.listed b phi hphi
  obtain ⟨-, hentry, hresult⟩ := hp.phi b k phi r hk
  refine .get_bind ?_
  rw [hkind phi hphi]
  dsimp only
  rw [lookup_eq_some_of_mem hp.nodup hentry]
  exact succeeds_ask_bind (resultOf_of_result ((halike.result phi).trans hresult)) (.pure _ _)

theorem Renaming.succeeds_block (h : plan.Renaming f f₁ c new done fill) (hp : plan.Prepared f f₁ new entries)
    (ht : c.Tidy) (hreach : f.Reach b) (hb : ∀ i ∈ f.instsOf b, i ∉ done)
    (hcomplete : ∀ d, f.Dominates d b → d ≠ b → ∀ j ∈ f.instsOf d, j ∈ done) (hlength : cur.length = plan.slots.length)
    (hclean : ∀ k, k < plan.slots.length → plan.phi? b k = none → plan.Clean f (cur.getD k 0))
    (hbound : ∀ v ∈ cur, v < f₁.values.size) :
    Succeeds ((c.instsOf b).foldlM (Edit.renameInst plan.addresses entries) cur) c ∧
      ∀ last c', ((c.instsOf b).foldlM (Edit.renameInst plan.addresses entries) cur).run c = (.ok last, c') →
        ∀ v ∈ last, v < f₁.values.size := by
  have hlisted := hp.regular.mem_layout_of_reach hp.sound hreach
  have hkind : ∀ phi ∈ new b, c.kind phi = .phi := fun phi hphi => (h.reshaped.fresh b phi hphi).2
  have hphis : ((f.phis b).foldlM (Edit.renameInst plan.addresses entries) cur).run c = (.ok cur, c) :=
    hp.run_phis h.reshaped.kind fun _ hi => hi
  obtain ⟨hnew, hnewbound⟩ := hp.succeeds_new h.alike ht.sound hkind (h.alike.values_size ▸ hbound)
  have hclean' : ∀ k, k < plan.slots.length → plan.Clean f (Function.update plan.inn b (plan.entering b cur) b k) := by
    intro k hk
    rw [Function.update_self]
    exact hp.clean_entering hclean hk
  have hrest : ∀ {cur₂ c₂}, ((new b).foldlM (Edit.renameInst plan.addresses entries) cur).run c = (.ok cur₂, c₂) →
      Succeeds (((f.instsOf b).dropWhile fun i => (f.kind i).isPhi).foldlM
        (Edit.renameInst plan.addresses entries) cur₂) c₂ ∧
      ∀ last c', (((f.instsOf b).dropWhile fun i => (f.kind i).isPhi).foldlM
        (Edit.renameInst plan.addresses entries) cur₂).run c₂ = (.ok last, c') → ∀ v ∈ last, v < f₁.values.size := by
    intro cur₂ c₂ hrun
    have hbound₂ := hnewbound cur₂ c₂ hrun
    obtain ⟨rfl, hcur₂⟩ := hp.run_added h.alike hkind hlength hrun
    rw [h.alike.values_size] at hbound₂
    exact Renaming.succeeds_insts (hp.withValues plan.stand (Function.update plan.inn b (plan.entering b cur))) hreach
      (h.behindPhis hp.sound hb) ht (f.phis_append b).symm (fun j hj => List.mem_append_left _ (List.mem_reverse.2 hj))
      (fun _ => hp.behind_phis hlisted hb) (fun d hd hdb j hj => List.mem_append_right _ (hcomplete d hd hdb j hj)) hclean'
      (holds_behindPhis hcur₂) hbound₂
  rw [h.instsOf_eq hb, List.foldlM_append, List.foldlM_append]
  refine ⟨.bind (.bind ⟨cur, c, hphis⟩ fun cur₁ c₁ hrun => ?_) fun cur₂ c₂ hrun => ?_, fun last c' hrun => ?_⟩
  · cases hphis.symm.trans hrun
    exact hnew
  · rw [run_bind, hphis] at hrun
    exact (hrest hrun).1
  · obtain ⟨cur₂, c₂, hfront, hrun⟩ := bind_eq_ok hrun
    rw [run_bind, hphis] at hfront
    exact (hrest hfront).2 last c' hrun

/-! ## Values of phis -/

/-- The phis keep their slots. -/
structure Sized (f c c₁ : Function) (new : BlockId → List InstId) (gone : InstId → Bool) (stand : ValueId → ValueId) :
    Prop where
  reshaped : f.Reshaped c₁ new gone stand
  values_size : c₁.values.size = c.values.size
  lengths : ∀ i, (c₁.operands i).length = (c.operands i).length

variable {p : BlockId} {last : Edit.SlotValues} {c₁ : Function} {gone : InstId → Bool} {stand : ValueId → ValueId}

/-- Making a slot of an added phi read a value succeeds. -/
theorem Sized.setOperand {phi : InstId} {slot : Nat} {v : ValueId} (h : Sized f c c₁ new gone stand)
    (hphi : f.insts.size ≤ phi) (hslot : slot < (c.operands phi).length) (hv : v < c.values.size) :
    Succeeds (Edit.setOperand phi slot v) c₁ ∧
      ∀ c₂, (Edit.setOperand phi slot v).run c₁ = (.ok (), c₂) → Sized f c c₂ new gone stand := by
  refine ⟨succeeds_setOperand h.reshaped.sound.indexed (by rw [h.lengths]; exact hslot) (by rw [h.values_size]; exact hv),
    fun c₂ hrun => ?_⟩
  obtain ⟨h₂, halike, hset, hother, -⟩ := h.reshaped.setOperand hphi hrun
  refine ⟨h₂, halike.values_size.trans h.values_size, fun i => ?_⟩
  by_cases hi : i = phi
  · rw [hi, hset, List.length_set, h.lengths]
  · rw [hother i hi, h.lengths]

/-- Entering values into the phis of a successor succeeds. -/
theorem Prepared.succeeds_fillPhis (hp : plan.Prepared f f₁ new entries) (h : Sized f c c₁ new gone stand)
    (hb : b ∈ f.layout) (hslots : ∀ k phi r, plan.phi? b k = some (phi, r) →
      (c.operands phi).length = (f.preds b).length)
    (hlast : ∀ k, k < plan.slots.length → last.getD k 0 < c.values.size) :
    Succeeds (Edit.fillPhis entries last p b) c₁ ∧
      ∀ c₂, (Edit.fillPhis entries last p b).run c₁ = (.ok (), c₂) → Sized f c c₂ new gone stand := by
  have hedges : ∀ slot ∈ ((f.preds b).zipIdx.filter fun e => e.1 == p).map (·.2), slot < (f.preds b).length := by
    intro slot hslot
    obtain ⟨e, he, rfl⟩ := List.mem_map.1 hslot
    exact List.snd_lt_of_mem_zipIdx (List.mem_of_mem_filter he)
  have hphis : ∀ phi ∈ c₁.phis b, ∀ k, entries.lookup phi = some k →
      f.insts.size ≤ phi ∧ k < plan.slots.length ∧ (c.operands phi).length = (f.preds b).length := by
    intro phi hphi k hk
    have hentry := mem_of_lookup hk
    refine ⟨hp.keys _ hentry, hp.labels _ hentry, ?_⟩
    rw [(h.reshaped.phis_eq hp.sound hp.regular.phis_first hb).1] at hphi
    rcases List.mem_append.1 hphi with hold | hnew
    · have hlt := hp.sound.lt_insts_size ((List.takeWhile_sublist _).subset hold)
      exact absurd hlt (Nat.not_lt.2 (hp.keys _ hentry))
    · obtain ⟨k', r, hphi'⟩ := hp.listed b phi hnew
      exact hslots k' phi r hphi'
  simp only [Succeeds, Edit.fillPhis, run_get_bind]
  refine Succeeds.forM_and_keeps (fun phi hphi g hg => ?_) h
  split
  · rename_i k hk
    obtain ⟨hsize, hlabel, hlength⟩ := hphis phi hphi k hk
    refine Succeeds.forM_and_keeps (fun slot hslot g' hg' => ?_) hg
    rw [h.reshaped.preds] at hslot
    exact hg'.setOperand hsize (by rw [hlength]; exact hedges slot hslot) (hlast k hlabel)
  · refine ⟨.pure _ _, fun g' hrun => ?_⟩
    cases hrun
    exact hg

/-- Entering values into the phis of all successors succeeds. -/
theorem Renaming.succeeds_fillAll (h : plan.Renaming f f₁ c new done fill) (hp : plan.Prepared f f₁ new entries)
    (hp' : p ∈ f.layout) (hlength : last.length = plan.slots.length) (hlast : ∀ v ∈ last, v < f₁.values.size) :
    Succeeds ((f.arms p).forM (Edit.fillPhis entries last p)) c := by
  refine (Succeeds.forM_and_keeps (P := fun g => Sized f c g new
    (fun i => done.contains i && (plan.accessOf? f i).isSome) plan.stand) (fun b hb g hg => ?_)
    ⟨h.reshaped, rfl, fun _ => rfl⟩).1
  refine hp.succeeds_fillPhis hg (hp.regular.mem_layout_of_mem_arms hp.sound hp' hb) (fun k phi r hphi => ?_) fun k hk => ?_
  · rw [h.filled b k phi r hphi, List.length_map]
  · rw [List.getD_eq_getElem _ _ (by rw [hlength]; exact hk), h.alike.values_size]
    exact hlast _ (List.getElem_mem _)

/-! ## The walk -/

theorem succeeds_renameFrom (visited : Array Bool) (pending : List (BlockId × Edit.SlotValues)) :
    ∀ {plan : SlotPlan} {c : Function} {done : List InstId} {fill : BlockId → Nat → ValueId} {blocks : List BlockId},
      plan.Prepared f f₁ new entries → plan.Walking f f₁ c new done fill blocks → plan.Pending f blocks pending →
      (∀ b, visited[b]? = some true ↔ b ∈ blocks) → visited.size = f.blocks.size → c.Tidy →
      (∀ e ∈ pending, ∀ v ∈ e.2, v < f₁.values.size) →
      Succeeds (Edit.renameFrom plan.addresses entries visited pending) c := by
  induction visited, pending using Edit.renameFrom.induct with
  | case1 visited =>
    intro plan c done fill blocks _ _ _ _ _ _ _
    rw [Edit.renameFrom]
    exact .pure _ _
  | case2 visited b cur rest hlt hv ih =>
    intro plan c done fill blocks hp h hpending hvisited hsize ht hbound
    rw [Edit.renameFrom, dif_pos hlt, dif_pos hv]
    have hb : b ∈ blocks := (hvisited b).1 (by rw [Array.getElem?_eq_getElem hlt, hv])
    exact ih hp h (hpending.passBy hb) hvisited hsize ht fun e he => hbound e (List.mem_cons_of_mem _ he)
  | case3 visited b cur rest hlt hv ih =>
    intro plan c done fill blocks hp h hpending hvisited hsize ht hbound
    rw [Edit.renameFrom, dif_pos hlt, dif_neg hv]
    have hfirst : (b, cur) ∈ (b, cur) :: rest := List.mem_cons_self
    have hreach := hpending.reach _ hfirst
    have hlisted := hp.regular.mem_layout_of_reach hp.sound hreach
    have hlength := hpending.length _ hfirst
    have horigin := hpending.origin _ hfirst
    have hnot : b ∉ blocks := by
      intro hb
      have hat := (hvisited b).2 hb
      rw [Array.getElem?_eq_getElem hlt] at hat
      exact hv (Option.some.inj hat)
    obtain ⟨hblock, hlast⟩ := h.state.succeeds_block hp ht hreach (h.fresh hp.sound hnot) (h.complete horigin) hlength
      (fun k => h.clean_origin hp horigin) (hbound _ hfirst)
    refine .get_bind (.bind hblock fun last c₁ hinsts => ?_)
    obtain ⟨stand₀, inn₀, -, -, hstate, hholds, -⟩ := h.state.block hp hreach (h.fresh hp.sound hnot)
      (h.complete horigin) hlength (fun k => h.clean_origin hp horigin) hinsts
    have hp₀ := hp.withValues stand₀ inn₀
    have hsuccs := hstate.successors hp₀ hlisted
    refine succeeds_ask_bind hsuccs ?_
    refine .bind (hstate.succeeds_fillAll hp₀ hlisted hholds.1 (hlast last c₁ hinsts)) fun _ c₂ hfill => ?_
    obtain ⟨-, stand, inn, h', hholds', hsame⟩ := h.block hp hreach hnot hlength horigin hinsts hsuccs hfill
    have ht₁ := Preserves.foldlM (fun cur i _ => stable_tidy.renameInst _ _ cur i) cur ht hinsts
    have ht₂ := Preserves.forM (fun succ _ => stable_tidy.fillPhis _ last b succ) ht₁ hfill
    have hbound' : ∀ e ∈ ((f.arms b).map fun succ => (succ, last)).reverse ++ rest, ∀ v ∈ e.2, v < f₁.values.size := by
      intro e he
      rcases (Pending.mem_next e).1 he with ⟨-, he⟩ | he
      · rw [he]
        exact hlast last c₁ hinsts
      · exact hbound e (List.mem_cons_of_mem _ he)
    have hrest := ih last (f.arms b) (hp.withValues stand inn) h' (hpending.visit hp.sound hp.regular hholds' hsame)
      (visited_set hvisited) (by rw [Array.size_set]; exact hsize) ht₂ hbound'
    exact hrest
  | case4 visited b cur rest hlt =>
    intro plan c done fill blocks hp _ hpending _ hsize _ _
    have hlisted := hp.regular.mem_layout_of_reach hp.sound (hpending.reach _ List.mem_cons_self)
    exact absurd (hsize ▸ ((hp.sound.mem_layout b).1 hlisted).1) hlt

end SlotPlan

end SsaCompiler
