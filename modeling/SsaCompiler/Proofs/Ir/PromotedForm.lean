import SsaCompiler.Proofs.Ir.TotalPromote

/-!
# Promotion keeps functions well formed

In a promoted function the blocks and edges are those of the function whose slots were promoted. An operand is what
stands for an operand of that function, or the value of a slot at the end of a predecessor; both are computed on all
paths to where they are read, and the instructions that compute them are neither loads of slots nor phis that were
taken out again.
-/

set_option autoImplicit false

namespace SsaCompiler

namespace SlotPlan

variable {i : InstId}

/-- The instructions of a block of a promoted function. -/
theorem Promoted.mem_insts_iff {plan : SlotPlan} {f f' : Function} {new : BlockId → List InstId} {b : BlockId}
    (h : plan.Promoted f f' new) (hb : f.Reach b) :
    i ∈ f'.instsOf b ↔ i ∈ new b ∨ i ∈ f.instsOf b ∧ plan.isGone f i = false := by
  have hphis : ∀ {i}, i ∈ f.phis b → plan.isGone f i = false := fun hi =>
    h.isGone_of_isPhi (f.isPhi_of_mem_phis hi)
  have hmem : i ∈ f.instsOf b ↔ i ∈ f.phis b ∨ i ∈ (f.instsOf b).dropWhile fun i => (f.kind i).isPhi := by
    rw [← List.mem_append, f.phis_append b]
  rw [h.insts b hb, hmem, List.mem_append, List.mem_append, List.mem_filter, Bool.not_eq_true']
  constructor
  · rintro ((hi | hi) | ⟨hi, hkept⟩)
    · exact .inr ⟨.inl hi, hphis hi⟩
    · exact .inl hi
    · exact .inr ⟨.inr hi, hkept⟩
  · rintro (hi | ⟨hi | hi, hkept⟩)
    · exact .inl (.inr hi)
    · exact .inl (.inl hi)
    · exact .inr ⟨hi, hkept⟩

/-- A promoted function with all its blocks and the instructions that were added. -/
structure Completed (plan : SlotPlan) (f f' : Function) (new : BlockId → List InstId) : Prop
    extends Promoted plan f f' new where
  layout : f'.layout = f.layout
  fresh : ∀ b, ∀ phi ∈ new b, f.insts.size ≤ phi
  lengths : ∀ b, ∀ phi ∈ new b, (f'.operands phi).length = (f.preds b).length
  clean : ∀ b i v, f.Reach b → i ∈ f'.instsOf b → v ∈ f'.operands i → plan.Clean f v
  cover : ∀ i v, f'.result? i = some v → f.result? i = some v ∨ ∃ d k, plan.phi? d k = some (i, v)

namespace Completed

open SsaCompiler.Function (Available)
open Promoted (isGone_of_isTerminator isGone_of_isPhi)

variable {plan : SlotPlan} {f f' : Function} {new : BlockId → List InstId} {b : BlockId}

/-! ## Code -/

variable {c : BlockId} {before : List InstId} {v : ValueId}

section

variable (h : plan.Completed f f' new)

include h

/-- What stands before an instruction that is no phi and stays. -/
theorem split (hb : f.Reach b) {after : List InstId} (hinsts : f.instsOf b = before ++ i :: after)
    (hphi : (f.kind i).isPhi = false) (hs : f.Sound) (hkept : plan.isGone f i = false) :
    ∃ before', f'.instsOf b = before' ++ i :: after.filter (fun j => !plan.isGone f j) ∧
      (∀ j ∈ before, plan.isGone f j = false → j ∈ before') ∧ (∀ j ∈ new b, j ∈ before') ∧
      ∀ j ∈ before', j ∈ new b ∨ j ∈ before ∧ plan.isGone f j = false := by
  have hrest : i ∈ (f.instsOf b).dropWhile fun i => (f.kind i).isPhi := by
    have hin : i ∈ f.instsOf b := by rw [hinsts]; simp
    rw [← f.phis_append b] at hin
    refine (List.mem_append.1 hin).resolve_left fun hin => ?_
    rw [f.isPhi_of_mem_phis hin] at hphi
    cases hphi
  obtain ⟨front, back, hsplit⟩ := List.append_of_mem hrest
  have hinsts' : f.instsOf b = (f.phis b ++ front) ++ i :: back := by
    rw [← f.phis_append b, hsplit, List.append_assoc]
  obtain ⟨-, rfl, rfl⟩ := hs.place_unique hinsts hinsts'
  refine ⟨f.phis b ++ new b ++ front.filter (fun j => !plan.isGone f j), ?_, fun j hj hgone => ?_, fun j hj => ?_,
    fun j hj => ?_⟩
  · rw [h.insts b hb, hsplit, List.filter_append, List.filter_cons_of_pos (by rw [hkept]; rfl)]
    simp
  · rcases List.mem_append.1 hj with hj | hj
    · simp [hj]
    · simp [hj, hgone]
  · simp [hj]
  · rcases List.mem_append.1 hj with hj | hj
    · rcases List.mem_append.1 hj with hj | hj
      · exact .inr ⟨List.mem_append_left _ hj, h.toPromoted.isGone_of_isPhi (f.isPhi_of_mem_phis hj)⟩
      · exact .inl hj
    · obtain ⟨hj, hgone⟩ := List.mem_filter.1 hj
      exact .inr ⟨List.mem_append_right _ hj, by rwa [Bool.not_eq_true'] at hgone⟩

/-- The end of a block. -/
theorem split_end (hs : f.Sound) (hr : f.Regular) (hb : f.Reach b) :
    ∃ before before' t, f.instsOf b = before ++ [t] ∧ f'.instsOf b = before' ++ [t] ∧ f'.kind t = f.kind t ∧
      (f.kind t).isTerminator = true ∧ (∀ j ∈ before, (f.kind j).isTerminator = false) ∧
      (∀ j ∈ before, plan.isGone f j = false → j ∈ before') ∧ (∀ j ∈ new b, j ∈ before') ∧
      ∀ j ∈ before', j ∈ new b ∨ j ∈ before ∧ plan.isGone f j = false := by
  obtain ⟨before, t, hinsts, hterm, hbefore⟩ := hr.ends b (hr.mem_layout_of_reach hs hb)
  have hkept := h.toPromoted.isGone_of_isTerminator hterm
  obtain ⟨before', hinsts', hstays, hnew, hfrom⟩ := h.split hb hinsts (InstKind.not_isPhi hterm) hs hkept
  have ht : t ∈ f.instsOf b := by rw [hinsts]; simp
  exact ⟨before, before', t, hinsts, hinsts', (h.kept b t hb ht hkept).1, hterm, hbefore, hstays, hnew, hfrom⟩

/-- The arms of a block stay. -/
theorem arms (hs : f.Sound) (hr : f.Regular) (hb : f.Reach b) : f'.arms b = f.arms b := by
  obtain ⟨before, before', t, hinsts, hinsts', hkind, -⟩ := h.split_end hs hr hb
  unfold Function.arms
  rw [hinsts, hinsts', List.getLast?_concat, List.getLast?_concat]
  dsimp only
  rw [hkind]

/-- What is a phi in the promoted function. -/
theorem isPhi_cases (hr : f.Regular) (hs : f.Sound) (hb : f.Reach b) (hi : i ∈ f'.instsOf b)
    (hphi : (f'.kind i).isPhi = true) :
    i ∈ new b ∨ i ∈ f.phis b ∧ i ∈ f.instsOf b ∧ (f.kind i).isPhi = true ∧
      f'.operands i = (f.operands i).map plan.stand := by
  refine ((h.mem_insts_iff hb).1 hi).imp_right fun hold => ?_
  obtain ⟨hkind, -, hoperands⟩ := h.kept b i hb hold.1 hold.2
  rw [hkind] at hphi
  exact ⟨(hr.mem_phis (hr.mem_layout_of_reach hs hb)).2 ⟨hold.1, hphi⟩, hold.1, hphi, hoperands⟩

end

variable (h : plan.Completed f f' new) (hs : f.Sound) (hr : f.Regular) (hc : f.Connected)

include h hs hr hc

/-- A promoted function is regular. -/
theorem regular (hs' : f'.Sound) : f'.Regular := by
  have hreach : ∀ {b}, b ∈ f'.layout → f.Reach b := fun hb => hc _ (h.layout ▸ hb)
  refine ⟨?_, fun b hb => ?_, fun b hb before i after hinsts hphi j hj => ?_, fun b hb i hi hphi => ?_, fun b hb t ht => ?_,
    fun b hb p => ?_⟩
  · obtain ⟨e, rest, hlayout, hpreds⟩ := hr.entry
    exact ⟨e, rest, h.layout.trans hlayout, (h.preds e).trans hpreds⟩
  · obtain ⟨before, before', t, hinsts, hinsts', hkind, hterm, hbefore, -, -, hfrom⟩ := h.split_end hs hr (hreach hb)
    refine ⟨before', t, hinsts', by rw [hkind]; exact hterm, fun j hj => ?_⟩
    rcases hfrom j hj with hnew | ⟨hold, hkept⟩
    · rw [(h.planned b j hnew).1]
      rfl
    · have hin : j ∈ f.instsOf b := hinsts ▸ List.mem_append_left _ hold
      rw [(h.kept b j (hreach hb) hin hkept).1]
      exact hbefore j hold
  · obtain ⟨hphis, hback⟩ := h.toPromoted.phis_eq hs hr (hreach hb)
    have hcode := f'.phis_append b
    rw [hinsts] at hcode
    rcases List.append_eq_append_iff.1 hcode with ⟨more, hmore, hrest⟩ | ⟨more, hmore, hrest⟩
    · -- Then the phi would stand among the instructions behind the phis.
      have hi : i ∈ (f'.instsOf b).dropWhile fun i => (f'.kind i).isPhi := by
        rw [hinsts, hrest]
        simp
      rw [hback] at hi
      obtain ⟨hi, hkept⟩ := List.mem_filter.1 hi
      have hin := (List.dropWhile_sublist _).subset hi
      rw [(h.kept b i (hreach hb) hin (by rwa [Bool.not_eq_true'] at hkept)).1] at hphi
      have hphi' := (hr.mem_phis (h.layout ▸ hb)).2 ⟨hin, hphi⟩
      have hnodup := hs.nodup b
      rw [← f.phis_append b, List.nodup_append] at hnodup
      exact absurd rfl (hnodup.2.2 i hphi' i hi)
    · refine f'.isPhi_of_mem_phis (b := b) ?_
      rw [hmore]
      exact List.mem_append_left _ hj
  · rw [h.preds]
    rcases h.isPhi_cases hr hs (hreach hb) hi hphi with hnew | ⟨-, hold, hphi', hoperands⟩
    · exact h.lengths b i hnew
    · rw [hoperands, List.length_map]
      exact hr.slots b (h.layout ▸ hb) i hold hphi'
  · rw [h.arms hs hr (hreach hb)] at ht
    have htarget := hr.mem_layout_of_mem_arms hs (h.layout ▸ hb) ht
    exact ((hs'.mem_layout t).1 (h.layout.symm ▸ htarget)).2
  · rw [h.preds, hr.preds b (h.layout ▸ hb) p, h.layout]
    split
    · rename_i hp
      rw [h.arms hs hr (hc p hp)]
    · rfl

/-- Edges stay the same. -/
theorem edge_iff (hs' : f'.Sound) {d : BlockId} (hreach : f.Reach c) : f'.Edge c d ↔ f.Edge c d := by
  have hlisted := hr.mem_layout_of_reach hs hreach
  rw [(h.regular hs hr hc hs').edge_iff (h.layout ▸ hlisted), hr.edge_iff hlisted, h.arms hs hr hreach]

/-- The same blocks are reachable. -/
theorem reach_iff (hs' : f'.Sound) : f'.Reach c ↔ f.Reach c := by
  constructor
  · intro hreach
    exact hc c (h.layout ▸ (h.regular hs hr hc hs').mem_layout_of_reach hs' hreach)
  · exact fun hreach => hreach.of_edges h.head fun _ _ hq => (h.edge_iff hs hr hc hs' hq).2

/-- Dominance stays. -/
theorem dominates (hs' : f'.Sound) {d : BlockId} (hdom : f.Dominates c d) : f'.Dominates c d :=
  hdom.of_edges h.head fun _ _ hq => (h.edge_iff hs hr hc hs' hq).1

/-! ## Values -/

omit hr hc in
/-- What gives a clean value stays. -/
theorem isGone_of_clean {j : InstId} (hclean : plan.Clean f v) (hresult : f.result? j = some v) :
    plan.isGone f j = false := by
  unfold isGone
  rw [Bool.or_eq_false_iff]
  constructor
  · rw [Bool.eq_false_iff]
    intro hslot
    obtain ⟨e, he, hej⟩ := List.any_eq_true.1 hslot
    have hresult' := (h.reserve e he).2
    rw [eq_of_beq hej, hresult] at hresult'
    refine hclean.1 ?_
    rw [Option.some.inj hresult']
    exact List.mem_map_of_mem he
  · rw [Option.isSome_eq_false_iff, Option.isNone_iff_eq_none]
    by_contra hsome
    obtain ⟨k, hk⟩ := Option.ne_none_iff_exists'.1 hsome
    rcases (accessOf?_eq_some_iff.1 hk).1 with hload | hstore
    · exact hclean.2 j ⟨hload, ⟨k, hk⟩, hresult⟩
    · have hgives := hs.gives j v hresult
      rw [hstore] at hgives
      cases hgives

/-- What was computed on all paths to a place in the function still is in the promoted one. -/
theorem available (hs' : f'.Sound) (hreach : f.Reach b) {before' : List InstId} (hv : v < f'.values.size)
    (hplaced : plan.Placed f b before v) (hclean : plan.Clean f v) (halive : plan.Alive new v)
    (hstays : ∀ j ∈ before, plan.isGone f j = false → j ∈ before') (hnew : ∀ j ∈ new b, j ∈ before') :
    f'.Available b before' v := by
  intro j hj
  rcases h.cover j v (hs'.result_of_kind j v hv hj) with hold | ⟨d, k, hphi⟩
  · obtain ⟨hlt, hkind⟩ := hs.kind_of_result j v hold
    have hkept := h.isGone_of_clean hs hclean hold
    refine (hplaced.available hlt j hkind).imp (fun hin => hstays j hin hkept) ?_
    rintro ⟨d, hd, hne, hdom⟩
    have hin := (h.mem_insts_iff (hdom.reach hreach)).2 (.inr ⟨(hs.placed d j).2 hd, hkept⟩)
    exact ⟨d, (hs'.placed d j).1 hin, hne, h.dominates hs hr hc hs' hdom⟩
  · have hin := halive d k j hphi
    have hdom := hplaced.dominates d k j hphi
    by_cases hdb : d = b
    · exact .inl (hnew j (hdb ▸ hin))
    · have hin' := (h.mem_insts_iff (hdom.reach hreach)).2 (.inl hin)
      exact .inr ⟨d, (hs'.placed d j).1 hin', hdb, h.dominates hs hr hc hs' hdom⟩

/-- In a promoted function values are computed before they are read. -/
theorem strict (hs' : f'.Sound) (hstrict : f.Strict) : f'.Strict := by
  have hread : ∀ {b i v}, f.Reach b → i ∈ f'.instsOf b → v ∈ f'.operands i →
      v < f'.values.size ∧ plan.Clean f v ∧ plan.Alive new v := fun hb hi hv =>
    ⟨Edit.lt_size_of_mem_operands hs'.indexed hv, h.clean _ _ _ hb hi hv, h.alive _ _ _ hb hi hv⟩
  refine ⟨fun b before' i after' hb hinsts' hphi v hv => ?_, fun b i hb hi hphi p v hp hfeeds => ?_⟩
  · rw [h.reach_iff hs hr hc hs'] at hb
    have hi : i ∈ f'.instsOf b := by rw [hinsts']; simp
    obtain ⟨hlt, hclean, halive⟩ := hread hb hi hv
    rcases (h.mem_insts_iff hb).1 hi with hnew | ⟨hold, hkept⟩
    · rw [(h.planned b i hnew).1] at hphi
      cases hphi
    · obtain ⟨hkind, -, hoperands⟩ := h.kept b i hb hold hkept
      rw [hkind] at hphi
      obtain ⟨before, after, hinsts⟩ := List.append_of_mem hold
      obtain ⟨before₁, hinsts₁, hstays, hadded, -⟩ := h.split hb hinsts hphi hs hkept
      obtain ⟨-, rfl, -⟩ := hs'.place_unique hinsts' hinsts₁
      rw [hoperands] at hv
      obtain ⟨w, hw, rfl⟩ := List.mem_map.1 hv
      have hplaced := h.coherent.stand_placed hs hr hstrict hb hinsts (Edit.lt_size_of_mem_operands hs.indexed hw)
        (hstrict.operand b before i after hb hinsts hphi w hw)
      exact h.available hs hr hc hs' hb hlt hplaced hclean halive hstays hadded
  · rw [h.reach_iff hs hr hc hs'] at hb hp
    obtain ⟨slot, hslot⟩ := List.mem_iff_getElem?.1 hfeeds
    obtain ⟨hpred, hoperand⟩ := List.getElem?_zip_eq_some.1 hslot
    rw [h.preds] at hpred
    obtain ⟨hlt, hclean, halive⟩ := hread hb hi (List.mem_of_getElem? hoperand)
    obtain ⟨before, before', t, hinsts, hinsts', -, -, -, hstays, hadded, -⟩ := h.split_end hs hr hp
    rw [hinsts', List.dropLast_concat]
    refine h.available hs hr hc hs' hp hlt ?_ hclean halive hstays hadded
    rcases h.isPhi_cases hr hs hb hi hphi with hnew | ⟨-, hold, hphi', hoperands⟩
    · obtain ⟨-, k, r, hk, hplan⟩ := h.planned b i hnew
      rw [(h.placed b k i r hplan hnew).2.2 slot p hpred hp] at hoperand
      obtain rfl := Option.some.inj hoperand
      rw [Promoted.current_end hr (hr.mem_layout_of_reach hs hp) hinsts]
      exact h.coherent.current_placed hs hr hstrict hp hinsts hk
    · rw [hoperands, List.getElem?_map, Option.map_eq_some_iff] at hoperand
      obtain ⟨w, hw, rfl⟩ := hoperand
      have hfeeds' : f.Feeds b i p w :=
        List.mem_of_getElem? (i := slot) (List.getElem?_zip_eq_some.2 ⟨hpred, hw⟩)
      have havail := hstrict.incoming b i hb hold hphi' p w hp hfeeds'
      rw [hinsts, List.dropLast_concat] at havail
      exact h.coherent.stand_placed hs hr hstrict hp hinsts
        (Edit.lt_size_of_mem_operands hs.indexed (List.mem_of_getElem? hw)) havail

/-- In a promoted function phis agree. -/
theorem agreeing (hagree : f.AgreeingPhis) : f'.AgreeingPhis := by
  intro b hb i hi hphi p v v' hv hv'
  have hb' : b ∈ f.layout := h.layout ▸ hb
  obtain ⟨slot, hslot⟩ := List.mem_iff_getElem?.1 hv
  obtain ⟨slot', hslot'⟩ := List.mem_iff_getElem?.1 hv'
  obtain ⟨hpred, hoperand⟩ := List.getElem?_zip_eq_some.1 hslot
  obtain ⟨hpred', hoperand'⟩ := List.getElem?_zip_eq_some.1 hslot'
  rw [h.preds] at hpred hpred'
  rcases h.isPhi_cases hr hs (hc b hb') hi hphi with hnew | ⟨-, hold, hphi', hoperands⟩
  · obtain ⟨-, k, r, -, hplan⟩ := h.planned b i hnew
    have hp : f.Reach p := hc p ((hr.mem_preds_iff hb').1 (List.mem_of_getElem? hpred)).1
    have hfilled := (h.placed b k i r hplan hnew).2.2
    rw [hfilled slot p hpred hp] at hoperand
    rw [hfilled slot' p hpred' hp] at hoperand'
    exact Option.some.inj (hoperand.symm.trans hoperand')
  · rw [hoperands, List.getElem?_map, Option.map_eq_some_iff] at hoperand hoperand'
    obtain ⟨w, hw, rfl⟩ := hoperand
    obtain ⟨w', hw', rfl⟩ := hoperand'
    have hfeeds : f.Feeds b i p w := List.mem_of_getElem? (i := slot) (List.getElem?_zip_eq_some.2 ⟨hpred, hw⟩)
    have hfeeds' : f.Feeds b i p w' := List.mem_of_getElem? (i := slot') (List.getElem?_zip_eq_some.2 ⟨hpred', hw'⟩)
    rw [hagree b hb' i hold hphi' p w w' hfeeds hfeeds']

end Completed

end SlotPlan

namespace Edit

open Edits

variable {f f' : Function}

/-- The promoted function is complete. -/
theorem completed_of_walking {plan : SlotPlan} {f₂ c₃ c₄ : Function} {new : BlockId → List InstId}
    {entries : List (InstId × Nat)} {done : List InstId} {fill : BlockId → Nat → ValueId} {blocks : List BlockId}
    (hp : plan.Prepared f f₂ new entries) (hzero : plan.zero < f₂.values.size ∧ (f₂.value plan.zero).kind = .const 0)
    (h : plan.Walking f f₂ c₃ new done fill blocks) (hblocks : ∀ b, b ∈ blocks ↔ f.Reach b) (hc : f.Connected)
    (ht : f.Tidy) (ht₃ : c₃.Tidy) (hsite : ∀ e ∈ entries, ∃ b, e.1 ∈ new b)
    (hcover : ∀ i, f.insts.size ≤ i → i < f₂.insts.size → i ∈ entries.map Prod.fst)
    (hslots : (plan.slots.forM fun (i, _) => removeInst i).run c₃ = (.ok (), c₄)) {count : Nat}
    (hdead : (removeDeadPhis (entries.map Prod.fst)).run c₄ = (.ok count, f')) : ∃ new', plan.Completed f f' new' := by
  obtain ⟨new', hpromoted, hlayout, hresult, hnew⟩ := promoted_of_walking hp hzero h hblocks hslots hdead
  refine ⟨new', hpromoted, hlayout, fun b phi hphi => ?_, fun b phi hphi => ?_, fun b i v hb hi hv => ?_,
    fun i v hi => ?_⟩
  · obtain ⟨k, r, hplan⟩ := hp.listed b phi (hnew b phi hphi).1
    exact hp.keys _ (hp.phi b k phi r hplan).2.1
  · obtain ⟨hin, hsame⟩ := hnew b phi hphi
    obtain ⟨k, r, hplan⟩ := hp.listed b phi hin
    rw [hsame, h.state.filled b k phi r hplan, List.length_map]
  · refine clean_operands (j := i) hp h hblocks hc ht ht₃ ?_
    rcases (hpromoted.mem_insts_iff hb).1 hi with hin | ⟨hold, hkept⟩
    · rwa [(hnew b i hin).2] at hv
    · have hnone : (done.contains i && (plan.accessOf? f i).isSome) = false := by
        unfold SlotPlan.isGone at hkept
        rw [(Bool.or_eq_false_iff.1 hkept).2, Bool.and_false]
      rw [h.state.reshaped.operands i (hp.sound.lt_insts_size hold) hnone]
      rwa [(hpromoted.kept b i hb hold hkept).2.2] at hv
  · rw [hresult] at hi
    rcases Nat.lt_or_ge i f.insts.size with hlt | hge
    · left
      rw [← h.state.reshaped.result i hlt, h.state.alike.result, hi]
    · right
      have hlt : i < f₂.insts.size := by
        by_contra hout
        rw [Function.result?, inst_of_size_le (Nat.le_of_not_lt hout)] at hi
        cases hi
      obtain ⟨e, he, rfl⟩ := List.mem_map.1 (hcover i hge hlt)
      obtain ⟨b, hb⟩ := hsite e he
      obtain ⟨k, r, hplan⟩ := hp.listed b e.1 hb
      obtain rfl : r = v := Option.some.inj ((hp.phi b k e.1 r hplan).2.2.symm.trans hi)
      exact ⟨b, k, hplan⟩

variable {stats : PromotionStats}

/-- What promotion does: the control flow is simplified, and if there are slots to promote, they are promoted according
to some plan. -/
theorem promote_cases (hwf : f.WellFormed) (ht : f.Tidy) (hrun : promote.run f = (.ok stats, f')) :
    ∃ steps g slots, simplify.run f = (.ok steps, g) ∧ Exchangeable g ∧ promotableSlots g = .ok slots ∧
      stats.cfgSteps = steps ∧ stats.promoted = slots.length ∧
      (slots = [] ∧ stats.phisInserted = 0 ∧ f' = g ∨
        slots ≠ [] ∧ ∃ plan new, plan.slots = slots ∧ SlotPlan.Completed plan g f' new) := by
  obtain ⟨steps, g, slots, hsimplify, hslots, hsteps, hpromoted, hcase⟩ := promote_eq_ok hrun
  have hg := (succeeds_simplify hwf ht).2 steps g hsimplify
  refine ⟨steps, g, slots, hsimplify, hg, hslots, hsteps, hpromoted, hcase.imp_right fun hcase => ?_⟩
  obtain ⟨⟨hs, hr, hstrict, -⟩, hgt, hc⟩ := hg
  obtain ⟨hsome, tree, entries, zero, e, f₁, f₂, c₃, c₄, count, hwalks, -, hremove, hdead⟩ := hcase
  have ht₁ := (stable_tidy.placeAllPhis tree _ ⟨hgt, landed_of_ofCfg hwalks.dominators⟩ hwalks.placed).1
  have ht₃ := stable_tidy.renameFrom _ _ _ _ (stable_tidy.constValue 0 ht₁ hwalks.constant) hwalks.renamed
  obtain ⟨plan, new, done, fill, blocks, rfl, hp, hwalking, hblocks, hzero, hsite, hcover⟩ := hwalks.walking hs hr hstrict
  obtain ⟨new', h⟩ := completed_of_walking hp hzero hwalking hblocks hc hgt ht₃ hsite hcover hremove hdead
  exact ⟨hsome, plan, new', rfl, h⟩

/-- Promotion keeps functions well formed, and after it every block is reachable. -/
theorem exchangeable_promote (hwf : f.WellFormed) (ht : f.Tidy) (hrun : promote.run f = (.ok stats, f')) :
    Exchangeable f' := by
  have ht' : f'.Tidy := stable_tidy.promote ht hrun
  obtain ⟨steps, g, slots, -, hg, -, -, -, ⟨-, -, rfl⟩ | ⟨-, plan, new, -, h⟩⟩ := promote_cases hwf ht hrun
  · exact hg
  · obtain ⟨⟨hs, hr, hstrict, hagree⟩, -, hc⟩ := hg
    exact ⟨⟨ht'.sound, h.regular hs hr hc ht'.sound, h.strict hs hr hc ht'.sound hstrict, h.agreeing hs hr hc hagree⟩,
      ht', fun b hb => (h.reach_iff hs hr hc ht'.sound).2 (hc b (h.layout ▸ hb))⟩

end Edit

end SsaCompiler
