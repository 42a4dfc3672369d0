import SsaCompiler.Ir.Simplify
import SsaCompiler.Proofs.Graph.Reachability
import SsaCompiler.Proofs.Ir.Placement
import SsaCompiler.Proofs.Ir.Rerouting

/-!
# Pruned blocks

Blocks to which no path leads are removed. First the edges from them to reachable blocks are cut, one
predecessor with its phi slots for each arm, then the blocks go. Reachable blocks keep their instructions
and what their phis take from reachable predecessors, so the runs stay the same.
-/

set_option autoImplicit false

namespace SsaCompiler

variable {c : BlockId}

variable {d : BlockId}

namespace Function

variable {f g g' : Function}

/-- Reachability in the control-flow graph is reachability in the function. -/
theorem reachable_iff {e : BlockId} (he : f.layout.head? = some e) (b : BlockId) : f.cfg.Reachable b ↔ f.Reach b := by
  have hentry : f.cfg.entry = e := by
    change f.layout.headD _ = e
    rw [List.headD_eq_head?_getD, he]
    rfl
  constructor
  · intro h
    induction h with
    | refl =>
      rw [hentry]
      exact .entry he
    | tail _ hedge ih => exact ih.step hedge
  · intro h
    induction h with
    | entry he' =>
      rw [he] at he'
      rw [← Option.some.inj he', ← hentry]
      exact .refl
    | step _ hedge ih => exact ih.tail hedge

/-- Every block is reachable. -/
def Connected (f : Function) : Prop := ∀ b ∈ f.layout, f.Reach b

/-- A function in which reachable blocks may have lost predecessors that are not reachable. -/
structure Trimmed (f g : Function) : Prop where
  sound : g.Sound
  layout : g.layout = f.layout
  insts : ∀ b, g.instsOf b = f.instsOf b
  kind : ∀ i, g.kind i = f.kind i
  result : ∀ i, g.result? i = f.result? i
  removed : ∀ b, (g.block b).removed = (f.block b).removed
  blocks_size : g.blocks.size = f.blocks.size
  values_size : g.values.size = f.values.size
  kinds : ∀ v, (g.value v).kind = (f.value v).kind
  operands : ∀ i, (f.kind i).isPhi = false → g.operands i = f.operands i
  slots : ∀ c, f.Reach c → ∀ i ∈ f.phis c, (g.operands i).length = (g.preds c).length
  feeds : ∀ c, f.Reach c → ∀ i ∈ f.phis c, ∀ p v, g.Feeds c i p v → f.Feeds c i p v
  kept : ∀ c, f.Reach c → ∀ i ∈ f.phis c, ∀ p v, f.Reach p → f.Feeds c i p v → g.Feeds c i p v

namespace Trimmed

theorem refl (hs : f.Sound) (hr : f.Regular) : f.Trimmed f where
  sound := hs
  layout := rfl
  insts _ := rfl
  kind _ := rfl
  result _ := rfl
  removed _ := rfl
  blocks_size := rfl
  values_size := rfl
  kinds _ := rfl
  operands _ _ := rfl
  slots c hc i hi := by
    have hlisted := hr.mem_layout_of_reach hs hc
    obtain ⟨hin, hphi⟩ := (hr.mem_phis hlisted).1 hi
    exact hr.slots c hlisted i hin hphi
  feeds _ _ _ _ _ _ h := h
  kept _ _ _ _ _ _ _ h := h

/-- The phis of a block stay the same. -/
theorem phis (h : f.Trimmed g) (c : BlockId) : g.phis c = f.phis c := by
  unfold Function.phis
  rw [h.insts]
  simp only [h.kind]

/-- The arms of a block stay the same. -/
theorem arms (h : f.Trimmed g) (c : BlockId) : g.arms c = f.arms c := by
  unfold Function.arms
  rw [h.insts]
  simp only [h.kind]

/-- A phi stands in one block. -/
theorem eq_of_mem_phis (hs : f.Sound) {i : InstId} (hc : i ∈ f.phis c) (hd : i ∈ f.phis d) : c = d := by
  have hone := (hs.placed c i).1 ((List.takeWhile_sublist _).subset hc)
  rw [(hs.placed d i).1 ((List.takeWhile_sublist _).subset hd)] at hone
  exact (Option.some.inj hone).symm

end Trimmed

/-- A function without the blocks that are not reachable. -/
structure Pruned (f f' : Function) : Prop where
  head : f'.layout.head? = f.layout.head?
  mem_layout : ∀ b, b ∈ f'.layout ↔ f.Reach b
  sublist : f'.layout.Sublist f.layout
  insts : ∀ b, f.Reach b → f'.instsOf b = f.instsOf b
  kind : ∀ i, f'.kind i = f.kind i
  result : ∀ i, f'.result? i = f.result? i
  removed : ∀ b, f.Reach b → (f'.block b).removed = (f.block b).removed
  values_size : f'.values.size = f.values.size
  kinds : ∀ v, (f'.value v).kind = (f.value v).kind
  operands : ∀ b, f.Reach b → ∀ i ∈ f.instsOf b, (f.kind i).isPhi = false → f'.operands i = f.operands i
  slots : ∀ c, f.Reach c → ∀ i ∈ f.phis c, (f'.operands i).length = (f'.preds c).length
  feeds : ∀ c, f.Reach c → ∀ i ∈ f.phis c, ∀ p v, f'.Feeds c i p v → f.Feeds c i p v
  kept : ∀ c, f.Reach c → ∀ i ∈ f.phis c, ∀ p v, f.Reach p → f.Feeds c i p v → f'.Feeds c i p v
  count_of_reach : ∀ c, f.Reach c → ∀ p, f.Reach p → (f'.preds c).count p = (f.preds c).count p
  count_of_not_reach : ∀ c, f.Reach c → ∀ p, ¬ f.Reach p → (f'.preds c).count p = 0

namespace Pruned

variable {f' : Function}

variable (h : f.Pruned f')

include h

/-- The arms of a reachable block stay the same. -/
theorem arms (hc : f.Reach c) : f'.arms c = f.arms c := by
  unfold Function.arms
  rw [h.insts c hc]
  simp only [h.kind]

section

variable (hs : f.Sound) (hr : f.Regular)

include hs hr

/-- A pruned function is regular. -/
theorem regular : f'.Regular where
  entry := by
    obtain ⟨e, rest, hlayout, hpreds⟩ := hr.entry
    have hhead : f'.layout.head? = some e := h.head.trans (by rw [hlayout]; rfl)
    obtain ⟨rest', hlayout'⟩ := List.head?_eq_some_iff.1 hhead
    have he : f.Reach e := (h.mem_layout e).1 (hlayout' ▸ List.mem_cons_self)
    refine ⟨e, rest', hlayout', List.eq_nil_iff_forall_not_mem.2 fun p hp => ?_⟩
    have hpos := List.count_pos_iff.2 hp
    by_cases hreach : f.Reach p
    · rw [h.count_of_reach e he p hreach, hpreds] at hpos
      cases hpos
    · rw [h.count_of_not_reach e he p hreach] at hpos
      cases hpos
  ends c hc := by
    have hreach := (h.mem_layout c).1 hc
    refine hr.ends_of_map (ρ := id) (hr.mem_layout_of_reach hs hreach) ?_ fun i _ => by rw [id, h.kind]
    rw [h.insts c hreach, List.map_id]
  phis_first c hc before i after hsplit hi := by
    have hreach := (h.mem_layout c).1 hc
    refine hr.phis_first_of_map (ρ := id) (hr.mem_layout_of_reach hs hreach) ?_ (fun i _ => by rw [id, h.kind])
      hsplit hi
    rw [h.insts c hreach, List.map_id]
  slots c hc i hi hphi := by
    have hreach := (h.mem_layout c).1 hc
    rw [h.insts c hreach] at hi
    rw [h.kind] at hphi
    exact h.slots c hreach i ((hr.mem_phis (hr.mem_layout_of_reach hs hreach)).2 ⟨hi, hphi⟩)
  targets c hc t ht := by
    have hreach := (h.mem_layout c).1 hc
    have hlisted := hr.mem_layout_of_reach hs hreach
    rw [h.arms hreach] at ht
    rw [h.removed t (hreach.step ((hr.edge_iff hlisted).2 ht))]
    exact hr.targets c hlisted t ht
  preds c hc p := by
    have hreach := (h.mem_layout c).1 hc
    split
    · rename_i hp
      have hreachp := (h.mem_layout p).1 hp
      rw [h.arms hreachp, h.count_of_reach c hreach p hreachp,
        hr.preds c (hr.mem_layout_of_reach hs hreach) p, if_pos (hr.mem_layout_of_reach hs hreachp)]
    · rename_i hp
      exact h.count_of_not_reach c hreach p fun hreachp => hp ((h.mem_layout p).2 hreachp)

/-- What is reachable stays so. -/
theorem reached {b : BlockId} (hb : f.Reach b) : f'.Reach b := by
  refine hb.of_edges h.head fun c d hc hedge => ((h.regular hs hr).edge_iff ((h.mem_layout c).2 hc)).2 ?_
  rw [h.arms hc]
  exact (hr.edge_iff (hr.mem_layout_of_reach hs hc)).1 hedge

/-- In a pruned function phis agree. -/
theorem agreeing (hagree : f.AgreeingPhis) : f'.AgreeingPhis := by
  intro c hc i hi hphi p v v' hv hv'
  have hreach := (h.mem_layout c).1 hc
  have hlisted := hr.mem_layout_of_reach hs hreach
  rw [h.insts c hreach] at hi
  rw [h.kind] at hphi
  have hmem := (hr.mem_phis hlisted).2 ⟨hi, hphi⟩
  exact hagree c hlisted i hi hphi p v v' (h.feeds c hreach i hmem p v hv) (h.feeds c hreach i hmem p v' hv')

end

/-- Pruning leads no edge elsewhere. -/
theorem redirects : f.Redirects f' (fun _ => none) id where
  head := h.head
  entry _ _ := rfl
  kinds := h.kinds
  listed c hc _ := (h.mem_layout c).2 hc
  insts c hc _ := by rw [h.insts c hc, List.map_id]
  body c hc _ i hi _ := ⟨rfl, h.kind i, h.result i, h.operands c hc i hi⟩
  ends c hc _ t ht hterm := by
    have hmap : (f.kind t).targets.map (landing fun _ => none) = (f.kind t).targets := List.map_id _
    rw [id, h.kind, h.operands c hc t ht (InstKind.not_isPhi hterm), hmap]
    exact ⟨hterm, List.Subset.refl _, List.Subset.refl _⟩
  hops m t _ hhop := by cases hhop
  fed t ht _ phi hphi p v _ _ hfeeds := .inl (h.feeds t ht phi hphi p v hfeeds)

/-- A function in strict form stays so when it is pruned. -/
theorem strictForm (hf : f.StrictForm) (hs' : f'.Sound) : f'.StrictForm :=
  have hr' := h.regular hf.sound hf.regular
  ⟨hs', hr', h.redirects.strict hf.regular hf.sound hr' hs' hf.strict h.values_size⟩

/-- Pruning reroutes no edge. -/
theorem reroutes (hs : f.Sound) (hr : f.Regular) : f.Reroutes f' (fun _ => none) id where
  toRedirects := h.redirects
  goes c hc _ t ht hterm W env vals values hvalues := by
    rw [id, h.kind, h.operands c hc t ht (InstKind.not_isPhi hterm)]
    refine ⟨values, hvalues, fun m w => ?_⟩
    cases (f.kind t).perform env t values m w <;> rfl
  feeds p m t hp hvia _ := by
    obtain ⟨-, -, ⟨rfl, harm⟩ | ⟨-, hhop⟩⟩ := hvia
    · have hlisted := hr.mem_layout_of_reach hs hp
      have hreach := hp.step ((hr.edge_iff hlisted).2 harm)
      refine ⟨List.count_pos_iff.1 ?_, fun phi hphi v => h.kept t hreach phi hphi m v hp⟩
      rw [h.count_of_reach t hreach m hp, List.count_pos_iff,
        hr.mem_preds_iff (hr.mem_layout_of_reach hs hreach)]
      exact ⟨hlisted, harm⟩
    · cases hhop

end Pruned

end Function

namespace Edit

open Edits

variable {f g g' : Function}

/-- Cutting one edge from a block that is not reachable. -/
theorem trimmed_removePredAt {idx : Nat} (hs : f.Sound) (h : f.Trimmed g) (hd : ¬ f.Reach d)
    (hidx : g.predIndex? c d = some idx) (hrun : (removePredAt c idx).run g = (.ok (), g')) :
    f.Trimmed g' ∧ ∀ c' p, (g'.preds c').count p + (if c' = c ∧ p = d then 1 else 0) =
      (g.preds c').count p := by
  obtain ⟨-, -, -, hbecomes, -⟩ := removePredAt_spec h.sound hrun
  have hslot := Function.getElem?_of_predIndex hidx
  have hinst : ∀ i, g'.inst i = if i ∈ f.phis c then { g.inst i with operands := (g.operands i).eraseIdx idx }
      else g.inst i := by
    intro i
    rw [hbecomes.inst, withoutSlot, h.phis]
  have hpreds : ∀ c', g'.preds c' = if c' = c then (g.preds c').eraseIdx idx else g.preds c' := by
    intro c'
    unfold Function.preds
    rw [hbecomes.block, Function.update_apply]
    split
    · rename_i hc
      rw [hc]
      rfl
    · rfl
  have hblock : ∀ c', g'.instsOf c' = g.instsOf c' ∧ (g'.block c').removed = (g.block c').removed := by
    intro c'
    unfold Function.instsOf
    rw [hbecomes.block, Function.update_apply]
    split
    · rename_i hc
      rw [hc]
      exact ⟨rfl, rfl⟩
    · exact ⟨rfl, rfl⟩
  have hzip : ∀ c', f.Reach c' → ∀ i ∈ f.phis c', (g'.operands i).length = (g'.preds c').length ∧
      (g'.preds c').zip (g'.operands i) = if c' = c then ((g.preds c').zip (g.operands i)).eraseIdx idx
        else (g.preds c').zip (g.operands i) := by
    intro c' hc' i hi
    have hlen := h.slots c' hc' i hi
    rw [hpreds]
    unfold Function.operands at hlen ⊢
    rw [hinst]
    by_cases hcc : c' = c
    · rw [if_pos hcc, if_pos (hcc ▸ hi), if_pos hcc]
      refine ⟨?_, Function.zip_eraseIdx _ _ _ hlen.symm⟩
      change ((g.inst i).operands.eraseIdx idx).length = _
      rw [List.length_eraseIdx, List.length_eraseIdx, hlen]
    · rw [if_neg hcc, if_neg fun hin => hcc (Function.Trimmed.eq_of_mem_phis hs hi hin), if_neg hcc]
      exact ⟨hlen, rfl⟩
  refine ⟨⟨sound_removePredAt h.sound hrun, hbecomes.layout.trans h.layout,
    fun b => (hblock b).1.trans (h.insts b), fun i => ?_, fun i => ?_,
    fun b => (hblock b).2.trans (h.removed b), hbecomes.blocks_size.trans h.blocks_size,
    hbecomes.values_size.trans h.values_size, fun v => (hbecomes.kinds v).trans (h.kinds v),
    fun i hi => ?_, fun c' hc' i hi => (hzip c' hc' i hi).1, fun c' hc' i hi p v hfeeds => ?_,
    fun c' hc' i hi p v hp hfeeds => ?_⟩, fun c' p => ?_⟩
  · rw [← h.kind]
    unfold Function.kind
    rw [hinst]
    split <;> rfl
  · rw [← h.result]
    unfold Function.result?
    rw [hinst]
    split <;> rfl
  · rw [← h.operands i hi]
    unfold Function.operands
    rw [hinst, if_neg]
    intro hin
    rw [f.isPhi_of_mem_phis hin] at hi
    cases hi
  · refine h.feeds c' hc' i hi p v ?_
    unfold Function.Feeds at hfeeds ⊢
    rw [(hzip c' hc' i hi).2] at hfeeds
    split at hfeeds
    · exact List.mem_of_mem_eraseIdx hfeeds
    · exact hfeeds
  · have hold := h.kept c' hc' i hi p v hp hfeeds
    unfold Function.Feeds at hold ⊢
    rw [(hzip c' hc' i hi).2]
    split
    · rename_i hcc
      -- The entry that goes belongs to the block that is not reachable.
      obtain ⟨k, hk⟩ := List.getElem?_of_mem hold
      refine List.mem_eraseIdx_iff_getElem?.2 ⟨k, ?_, hk⟩
      rintro rfl
      have hpk := (List.getElem?_zip_eq_some.1 hk).1
      rw [hcc, hslot] at hpk
      exact hd (Option.some.inj hpk ▸ hp)
    · exact hold
  · rw [hpreds]
    by_cases hcc : c' = c
    · have hcount := Function.count_eraseIdx (hcc ▸ hslot) p
      rw [if_pos hcc]
      simpa [hcc] using hcount
    · rw [if_neg hcc, if_neg fun hcp => hcc hcp.1, Nat.add_zero]

variable {order : ReversePostorder}

/-- Cutting all edges from a block that is not reachable to reachable ones. -/
theorem trimmed_cutEdges (hs : f.Sound) (horder : ∀ b, order.isReachable b = true ↔ f.Reach b) (h : f.Trimmed g)
    (hdead : ¬ f.Reach d) (hcount : ∀ c, f.Reach c → (g.preds c).count d = (f.arms d).count c)
    (hrun : (cutEdges order d).run g = (.ok (), g')) :
    f.Trimmed g' ∧ ∀ c, f.Reach c → ∀ p, (g'.preds c).count p = if p = d then 0 else (g.preds c).count p := by
  unfold cutEdges at hrun
  obtain ⟨succs, hsuccs, hrun⟩ := ask_bind_eq_ok hrun
  obtain rfl : f.arms d = succs := (h.arms d).symm.trans (Function.arms_of_successors hsuccs)
  -- What holds when the arms in `rest` are still to be cut.
  let P := fun (rest : List BlockId) (k : Function) => f.Trimmed k ∧
    ∀ c, f.Reach c → ∀ p, (k.preds c).count p = if p = d then rest.count c else (g.preds c).count p
  have hstart : P (f.arms d) g := by
    refine ⟨h, fun c hc p => ?_⟩
    split
    · rename_i hp
      rw [hp]
      exact hcount c hc
    · rfl
  have hend : P [] g' := by
    refine forM_keeps (P := P) ?_ hstart hrun
    rintro a rest k k' - ⟨hk, hcounts⟩ hstep
    split at hstep
    · rename_i hreach
      have hstep := of_get_bind hstep
      split at hstep
      · rename_i idx hidx
        obtain ⟨hk', hcount'⟩ := trimmed_removePredAt hs hk hdead hidx hstep
        refine ⟨hk', fun c hc p => ?_⟩
        have hone := hcount' c p
        rw [hcounts c hc p] at hone
        by_cases hp : p = d
        · rw [if_pos hp, List.count_cons] at hone
          rw [if_pos hp]
          by_cases hca : c = a
          · simp only [hca, hp, and_self, if_true, beq_self_eq_true] at hone
            rw [hca, hp]
            omega
          · simp only [hca, Ne.symm hca, false_and, if_false, Nat.add_zero, beq_iff_eq] at hone
            exact hone
        · rw [if_neg hp] at hone ⊢
          simpa [hp] using hone
      · -- There is an edge for each arm, so the list is not exhausted.
        rename_i hnone
        have hzero := List.count_eq_zero.2 (Function.predIndex_eq_none_iff.1 hnone)
        rw [hcounts a ((horder a).1 hreach) d, if_pos rfl, List.count_cons_self] at hzero
        cases hzero
    · rename_i hreach
      cases hstep
      refine ⟨hk, fun c hc p => ?_⟩
      rw [hcounts c hc p]
      have hca : a ≠ c := by
        rintro rfl
        exact hreach ((horder a).2 hc)
      rw [List.count_cons_of_ne hca]
  obtain ⟨htrimmed, hcounts⟩ := hend
  exact ⟨htrimmed, fun c hc p => by rw [hcounts c hc p, List.count_nil]⟩

/-- Cutting all edges from blocks that are not reachable. -/
theorem trimmed_forM_cutEdges {dead : List BlockId} (hs : f.Sound) (hr : f.Regular)
    (horder : ∀ b, order.isReachable b = true ↔ f.Reach b) (hdead : ∀ d ∈ dead, d ∈ f.layout ∧ ¬ f.Reach d)
    (hnodup : dead.Nodup) (hrun : (dead.forM (cutEdges order)).run f = (.ok (), g)) :
    f.Trimmed g ∧ ∀ c, f.Reach c → ∀ p, (g.preds c).count p =
      if p ∈ dead then 0 else (f.preds c).count p := by
  let P := fun (rest : List BlockId) (k : Function) => f.Trimmed k ∧
    ∀ c, f.Reach c → ∀ p, (k.preds c).count p =
      if p ∈ dead ∧ p ∉ rest then 0 else (f.preds c).count p
  have hstart : P dead f := ⟨.refl hs hr, fun c _ p => by rw [if_neg fun hp => hp.2 hp.1]⟩
  have hend : P [] g := by
    refine forM_keeps (P := P) ?_ hstart hrun
    rintro d rest k k' hsuffix ⟨hk, hcounts⟩ hstep
    have hmem : d ∈ dead := hsuffix.subset List.mem_cons_self
    have hnot : d ∉ rest := (List.nodup_cons.1 (hnodup.sublist hsuffix.sublist)).1
    obtain ⟨hlisted, hunreached⟩ := hdead d hmem
    have hd : ∀ c, f.Reach c → (k.preds c).count d = (f.arms d).count c := by
      intro c hc
      rw [hcounts c hc d, if_neg fun hp => hp.2 List.mem_cons_self,
        hr.preds c (hr.mem_layout_of_reach hs hc) d, if_pos hlisted]
    obtain ⟨hk', hcounts'⟩ := trimmed_cutEdges hs horder hk hunreached hd hstep
    refine ⟨hk', fun c hc p => ?_⟩
    rw [hcounts' c hc p, hcounts c hc p]
    by_cases hp : p = d
    · rw [if_pos hp, hp, if_pos ⟨hmem, hnot⟩]
    · simp [hp]
  obtain ⟨htrimmed, hcounts⟩ := hend
  exact ⟨htrimmed, fun c hc p => by rw [hcounts c hc p]; simp⟩

variable {f' : Function} {count : Nat}

theorem isReachable_iff_reach (hr : f.Regular) (horder : ReversePostorder.ofCfg f.cfg = .ok order) (b : BlockId) :
    order.isReachable b = true ↔ f.Reach b := by
  obtain ⟨e, rest, hlayout, -⟩ := hr.entry
  have he : f.layout.head? = some e := by rw [hlayout]; rfl
  exact (ReversePostorder.isReachable_iff horder b).trans (Function.reachable_iff he b)

/-- The blocks that are pruned. -/
theorem mem_unreachable (hr : f.Regular) (horder : ReversePostorder.ofCfg f.cfg = .ok order) (b : BlockId) :
    b ∈ f.layout.filter (fun b => !order.isReachable b) ↔ b ∈ f.layout ∧ ¬ f.Reach b := by
  rw [List.mem_filter, ← isReachable_iff_reach hr horder, Bool.not_eq_true', Bool.not_eq_true]

/-- Pruning changes nothing, or prunes. -/
theorem pruneUnreachable_spec (hs : f.Sound) (hr : f.Regular) (h : pruneUnreachable.run f = (.ok count, f')) :
    f = f' ∧ count = 0 ∧ f.Connected ∨
      f'.Sound ∧ f.Pruned f' ∧ 0 < count ∧ f'.layout.length + count = f.layout.length := by
  unfold pruneUnreachable at h
  obtain ⟨order, horder, h₀⟩ := ask_bind_eq_ok h
  have h₁ := of_get_bind h₀
  dsimp only at h₁
  have hreach := isReachable_iff_reach hr horder
  have hdead := mem_unreachable hr horder
  split at h₁
  · rename_i hnone
    cases h₁
    refine .inl ⟨rfl, rfl, fun b hb => ?_⟩
    by_contra hnot
    have hin := (hdead b).2 ⟨hb, hnot⟩
    rw [List.isEmpty_iff.1 hnone] at hin
    cases hin
  · rename_i hsome
    obtain ⟨⟨⟩, g, hcut, h₂⟩ := bind_eq_ok h₁
    obtain ⟨⟨⟩, f₃, hremove, h₃⟩ := bind_eq_ok h₂
    cases h₃
    right
    obtain ⟨htrimmed, hcounts⟩ := trimmed_forM_cutEdges hs hr hreach (fun d hd => (hdead d).1 hd)
      (hs.layout_nodup.filter _) hcut
    obtain ⟨hbecomes, -⟩ := removeBlocks_spec htrimmed.sound hremove
    have hstays : ∀ {b}, f.Reach b → b ∉ f.layout.filter fun b => !order.isReachable b :=
      fun hb hin => ((hdead _).1 hin).2 hb
    have hinsts : ∀ {b}, f.Reach b → f'.block b = g.block b := by
      intro b hb
      rw [hbecomes.block, if_neg (hstays hb)]
    have hlayout' : f'.layout = f.layout.filter fun b => order.isReachable b := by
      rw [hbecomes.layout, htrimmed.layout]
      refine List.filter_congr fun b hb => ?_
      by_cases hreachb : f.Reach b
      · have hnot : (f.layout.filter fun b => !order.isReachable b).contains b = false := by
          simpa using fun _ => (hreach b).2 hreachb
        rw [hnot, (hreach b).2 hreachb]
        rfl
      · have hin : (f.layout.filter fun b => !order.isReachable b).contains b = true := by
          rw [List.contains_iff_mem]
          exact (hdead b).2 ⟨hb, hreachb⟩
        rw [hin, Bool.eq_false_iff.2 fun hr => hreachb ((hreach b).1 hr)]
        rfl
    have hsame : ∀ {c i}, f.Reach c → i ∈ f.instsOf c → f'.operands i = g.operands i := by
      intro c i hc hi
      unfold Function.operands
      rw [hbecomes.inst, if_neg]
      intro hin
      obtain ⟨d, hd, hid⟩ := List.mem_flatMap.1 hin
      rw [htrimmed.insts] at hid
      have hone := (hs.placed c i).1 hi
      rw [(hs.placed d i).1 hid] at hone
      exact hstays hc (Option.some.inj hone ▸ hd)
    have hpreds : ∀ {c}, f.Reach c → f'.preds c = g.preds c := by
      intro c hc
      unfold Function.preds
      rw [hinsts hc]
    have hfeeds : ∀ {c i}, f.Reach c → i ∈ f.phis c → ∀ p v, f'.Feeds c i p v ↔ g.Feeds c i p v := by
      intro c i hc hi p v
      unfold Function.Feeds
      rw [hpreds hc, hsame hc ((List.takeWhile_sublist _).subset hi)]
    refine ⟨sound_removeBlocks htrimmed.sound hremove, ⟨?_, fun b => ?_, ?_, fun b hb => ?_, fun i => ?_,
      fun i => ?_, fun b hb => ?_, ?_, fun v => ?_, fun b hb i hi hphi => ?_, fun c hc i hi => ?_,
      fun c hc i hi p v hp => ?_, fun c hc i hi p v hp hp' => ?_, fun c hc p hp => ?_, fun c hc p hp => ?_⟩, ?_, ?_⟩
    · obtain ⟨e, rest, hlayout, -⟩ := hr.entry
      have he : f.layout.head? = some e := by rw [hlayout]; rfl
      rw [hlayout', hlayout, List.filter_cons_of_pos ((hreach e).2 (.entry he))]
      rfl
    · rw [hlayout', List.mem_filter, hreach]
      exact ⟨fun hb => hb.2, fun hb => ⟨hr.mem_layout_of_reach hs hb, hb⟩⟩
    · rw [hlayout']
      exact List.filter_sublist
    · rw [← htrimmed.insts]
      unfold Function.instsOf
      rw [hinsts hb]
    · rw [← htrimmed.kind]
      unfold Function.kind
      rw [hbecomes.inst]
      split <;> rfl
    · rw [← htrimmed.result]
      unfold Function.result?
      rw [hbecomes.inst]
      split <;> rfl
    · rw [hinsts hb, htrimmed.removed]
    · rw [hbecomes.values_size, htrimmed.values_size]
    · rw [hbecomes.kinds, htrimmed.kinds]
    · rw [hsame hb hi, htrimmed.operands i hphi]
    · rw [hsame hc ((List.takeWhile_sublist _).subset hi), hpreds hc]
      exact htrimmed.slots c hc i hi
    · exact htrimmed.feeds c hc i hi p v ((hfeeds hc hi p v).1 hp)
    · exact (hfeeds hc hi p v).2 (htrimmed.kept c hc i hi p v hp hp')
    · rw [hpreds hc, hcounts c hc p, if_neg (hstays hp)]
    · rw [hpreds hc, hcounts c hc p]
      split
      · rfl
      · rename_i hp'
        refine List.count_eq_zero.2 fun hin => hp' ?_
        exact (hdead p).2 ⟨((hr.mem_preds_iff (hr.mem_layout_of_reach hs hc)).1 hin).1, hp⟩
    · exact List.length_pos_iff.2 fun hnil => hsome (List.isEmpty_iff.2 hnil)
    · rw [hlayout', ← List.countP_eq_length_filter, ← List.countP_eq_length_filter,
        List.length_eq_countP_add_countP (fun b => order.isReachable b)]
      simp only [Bool.not_eq_true, Bool.decide_eq_false]

/-- Pruning keeps a function well formed, and its runs show the same. -/
theorem pruneUnreachable_keeps (hwf : f.WellFormed) (h : pruneUnreachable.run f = (.ok count, f')) :
    f'.WellFormed ∧ f.SameMeaning f' := by
  rcases pruneUnreachable_spec hwf.sound hwf.regular h with ⟨rfl, -⟩ | ⟨hs', hpruned, -⟩
  · exact ⟨hwf, fun _ _ _ _ => .refl _ _⟩
  · obtain ⟨-, hr', hstrict'⟩ := hpruned.strictForm hwf.strictForm hs'
    obtain ⟨hs, hr, hstrict, hagree⟩ := hwf
    have hagree' := hpruned.agreeing hs hr hagree
    exact ⟨⟨hs', hr', hstrict', hagree'⟩, (hpruned.reroutes hs hr).sameMeaning hr hs hstrict hr' hagree'⟩

/-- After pruning all blocks are reachable. -/
theorem connected_pruneUnreachable (hwf : f.WellFormed) (h : pruneUnreachable.run f = (.ok count, f')) :
    f'.Connected := by
  rcases pruneUnreachable_spec hwf.sound hwf.regular h with ⟨rfl, -, hconnected⟩ | ⟨-, hpruned, -⟩
  · exact hconnected
  · exact fun b hb => hpruned.reached hwf.sound hwf.regular ((hpruned.mem_layout b).1 hb)

end Edit

end SsaCompiler
