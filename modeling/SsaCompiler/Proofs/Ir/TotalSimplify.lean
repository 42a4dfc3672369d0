import SsaCompiler.Proofs.Ir.ShrinkingSteps
import SsaCompiler.Proofs.Ir.SuccessfulEdits

/-!
# Simplification succeeds

No step of simplifying control flow reports an error on a well-formed function. A branch that is folded is found
in the predecessor list of the arm that it drops; a block that is spliced out is the target of as many arms as its
predecessor list has entries; nothing reachable reads what an unreachable block computes; and a phi with one slot
does not feed itself.
-/

set_option autoImplicit false

namespace SsaCompiler

namespace Edit

open Edits

variable {f g : Function} {b : BlockId}

variable {c : BlockId} {i j phi t : InstId} {carried : List (InstId × ValueId)} {blocks : List BlockId} {idx : Nat}

/-- Adding up the counts of an action that succeeds on every block and keeps what it needs. -/
theorem succeeds_countOver {P : Function → Prop} {action : BlockId → Edit Nat}
    (hstep : ∀ b ∈ blocks, ∀ g, P g → Succeeds (action b) g ∧ ∀ n g', (action b).run g = (.ok n, g') → P g')
    (hf : P f) : Succeeds (countOver blocks action) f := by
  refine Succeeds.foldlM (P := fun _ _ => P) (fun count b rest g hsuffix hg => ?_) hf
  obtain ⟨hsucceeds, hkeeps⟩ := hstep b (hsuffix.subset List.mem_cons_self) g hg
  refine ⟨.bind hsucceeds fun _ _ _ => .pure _ _, fun count' g' hrun => ?_⟩
  obtain ⟨n, g₁, haction, hpure⟩ := bind_eq_ok hrun
  cases hpure
  exact hkeeps n _ haction

/-- A block that can be continued at names the block that continues in its predecessor list. -/
theorem predIndex?_of_mem_arms (hs : f.Sound) (hr : f.Regular) (hb : b ∈ f.layout) (hc : c ∈ f.arms b) :
    c ∈ f.layout ∧ ∃ idx, f.predIndex? c b = some idx := by
  have hlisted := hr.mem_layout_of_mem_arms hs hb hc
  refine ⟨hlisted, ?_⟩
  cases hidx : f.predIndex? c b with
  | some idx => exact ⟨idx, rfl⟩
  | none => exact absurd ((hr.mem_preds_iff hlisted).2 ⟨hb, hc⟩) (Function.predIndex_eq_none_iff.1 hidx)

/-- The terminator of a block. -/
theorem exists_terminator (hr : f.Regular) (hb : b ∈ f.layout) : ∃ t, f.terminator b = .ok t := by
  obtain ⟨before, t, hinsts, hterm, -⟩ := hr.ends b hb
  exact ⟨t, terminator_eq_ok.2 ⟨by rw [hinsts, List.getLast?_concat], hterm⟩⟩

/-- The arms of a block are the targets of its terminator. -/
theorem arms_of_terminator (ht : f.terminator b = .ok t) : f.arms b = (f.kind t).targets := by
  unfold Function.arms
  rw [(terminator_eq_ok.1 ht).1]

/-! ## Folding branches -/

theorem succeeds_foldBranch (hs : f.Sound) (hr : f.Regular) (hb : b ∈ f.layout) : Succeeds (foldBranch b) f := by
  obtain ⟨before, old, hinsts, hterm, hbefore⟩ := hr.ends b hb
  have hold : f.terminator b = .ok old := terminator_eq_ok.2 ⟨by rw [hinsts, List.getLast?_concat], hterm⟩
  have hmem : old ∈ f.instsOf b := hinsts ▸ List.mem_append_right _ List.mem_cons_self
  refine succeeds_ask_bind hold (.get_bind ?_)
  split
  · rename_i t e hkind
    have hfits := hs.fits b old hmem
    rw [hkind] at hfits
    obtain ⟨cond, hcond⟩ := List.length_eq_one_iff.1 (beq_iff_eq.1 hfits)
    refine succeeds_ask_bind (operand_of_getElem? (by rw [hcond]; rfl)) (.get_bind ?_)
    split
    · exact .pure _ _
    · rename_i taken dropped harm
      obtain ⟨harms, -⟩ := fixedArm_eq_some harm
      have hdropped : dropped ∈ f.arms b ∧ taken ∈ f.arms b := by
        rw [arms_of_terminator hold, hkind]
        rcases harms with ⟨rfl, rfl⟩ | ⟨rfl, rfl⟩ <;> simp [InstKind.targets]
      obtain ⟨hlisted, idx, hidx⟩ := predIndex?_of_mem_arms hs hr hb hdropped.1
      refine .bind (succeeds_replaceTerminator hs hinsts hterm hbefore) fun n f₁ hreplace => .get_bind ?_
      obtain ⟨-, -, hinst, -, -, hphis, hpreds⟩ := replaceTerminator_code hs hinsts hterm hreplace
      have hidx₁ : f₁.predIndex? dropped b = some idx := by
        rw [Function.predIndex?, hpreds]
        exact hidx
      have hs₁ : f₁.Sound := by
        refine sound_replaceTerminator hs rfl (fun c hc => ?_) hreplace
        rw [List.mem_singleton.1 hc]
        exact ((hs.mem_layout taken).1 (hr.mem_layout_of_mem_arms hs hb hdropped.2)).1
      obtain ⟨hlt, -⟩ := List.getElem?_eq_some_iff.1 (Function.getElem?_of_predIndex hidx)
      rw [hidx₁]
      refine .bind (succeeds_removePredAt hs₁ (by rw [hpreds]; exact hlt) fun phi hphi => ?_) fun _ _ _ => .pure _ _
      rw [hphis] at hphi
      obtain ⟨hin, hisphi⟩ := (hr.mem_phis hlisted).1 hphi
      have hne : phi ≠ old := by
        rintro rfl
        rw [InstKind.not_isPhi hterm] at hisphi
        cases hisphi
      have hne' : phi ≠ n := by
        rintro rfl
        exact (replaceTerminator_code hs hinsts hterm hreplace).1 dropped hin
      rw [Function.operands, hinst phi hne hne']
      change idx < (f.operands phi).length
      rw [hr.slots dropped hlisted phi hin hisphi]
      exact hlt
  · exact .pure _ _

theorem succeeds_foldBranches (hf : f.StrictForm) : Succeeds foldBranches f := by
  refine .get_bind (succeeds_countOver (P := fun g => g.StrictForm ∧ g.layout = f.layout) (fun b hb g hg => ?_) ⟨hf, rfl⟩)
  have hb' : b ∈ g.layout := hg.2 ▸ hb
  refine ⟨succeeds_foldBranch hg.1.sound hg.1.regular hb', fun n g' hrun => ?_⟩
  obtain ⟨hshrinks, hlayout⟩ := shrinks_foldBranch hg.1 hb' hrun
  exact ⟨hshrinks.strictForm, hlayout.trans hg.2⟩

/-! ## Splicing out blocks -/

/-- An arm that leads to a block can be led elsewhere. -/
theorem exists_redirect {kind : InstKind} (target : BlockId) (h : b ∈ kind.targets) :
    ∃ kind', kind.redirect? b target = some kind' := by
  unfold InstKind.redirect?
  cases kind with
  | jump t => exact ⟨_, if_pos (List.mem_singleton.1 h).symm⟩
  | branch t e =>
    dsimp only
    split
    · exact ⟨_, rfl⟩
    · rename_i ht
      rcases List.mem_cons.1 h with rfl | he
      · exact absurd rfl ht
      · exact ⟨_, if_pos (List.mem_singleton.1 he).symm⟩
  | binary | ret | gep | load | store | call | alloca | phi | print => cases h

variable {p target : BlockId}

/-- Looking for a branch succeeds where the blocks have terminators. -/
theorem succeeds_sharesBranch (h : ∀ p ∈ blocks, ∃ t, f.terminator p = .ok t) :
    Succeeds (sharesBranch blocks target) f := by
  induction blocks with
  | nil => exact .pure _ _
  | cons p rest ih =>
    have hrest := ih fun q hq => h q (List.mem_cons_of_mem _ hq)
    obtain ⟨t, ht⟩ := h p List.mem_cons_self
    unfold sharesBranch
    refine succeeds_ask_bind ht (.get_bind ?_)
    split
    · split
      · exact .pure _ _
      · exact hrest
    · exact hrest

/-- Moving an edge succeeds as long as the predecessor has an arm that leads to the block. -/
theorem succeeds_moveEdge {done : List BlockId} (h : Moving f g b target carried done) (hr : f.terminator p = .ok t)
    (hcount : done.count p < (f.kind t).targets.count b) (htarget : target < f.blocks.size)
    (hcarried : ∀ e ∈ carried, e.1 < g.insts.size ∧ e.2 < g.values.size) :
    Succeeds (moveEdge b target carried p) g := by
  obtain ⟨hlast, hterm⟩ := terminator_eq_ok.1 hr
  have hgterm : g.terminator p = .ok t := by
    refine terminator_eq_ok.2 ⟨by rw [h.instsOf_eq]; exact hlast, ?_⟩
    rw [(h.sort t).1]
    exact hterm
  have hin : b ∈ (g.kind t).targets := by
    have hsum := h.count p t hlast
    exact List.count_pos_iff.1 (by omega)
  have hmem : t ∈ g.instsOf p := by
    rw [h.instsOf_eq]
    exact List.mem_of_getLast? hlast
  obtain ⟨kind, hkind⟩ := exists_redirect target hin
  refine succeeds_ask_bind hgterm (.bind ?_ fun found g₁ hredirect => ?_)
  · refine .get_bind ?_
    rw [hkind]
    exact .bind (succeeds_modifyInst (h.sound.lt_insts_size hmem) _) fun _ _ _ => .pure _ _
  · rcases redirectTarget_spec hredirect with ⟨rfl, rfl⟩ | ⟨kind', -, rfl, -, hsize, hbecomes, -⟩
    · unfold redirectTarget at hredirect
      have hrun := of_get_bind hredirect
      rw [hkind] at hrun
      obtain ⟨⟨⟩, g₃, -, hpure⟩ := bind_eq_ok hrun
      cases hpure
    · refine .bind (succeeds_modifyBlock ?_ _) fun _ g₂ hadd => ?_
      · rw [hbecomes.blocks_size, h.becomes.blocks_size]
        exact htarget
      · obtain ⟨-, hsize₂, hbecomes₂, -⟩ := addPred_spec hadd
        refine .forM_of_keeps (P := fun k => k.insts.size = g.insts.size ∧ k.values.size = g.values.size)
          (fun e he k hk => ?_) ⟨hsize₂.trans hsize, hbecomes₂.values_size.trans hbecomes.values_size⟩
        obtain ⟨hi, hv⟩ := hcarried e he
        refine ⟨succeeds_pushOperand (hk.1 ▸ hi) (hk.2 ▸ hv), fun k' hrun => ?_⟩
        obtain ⟨-, -, hsize', hbecomes', -⟩ := pushOperand_spec hrun
        exact ⟨hsize'.trans hk.1, hbecomes'.values_size.trans hk.2⟩

/-- What losing a predecessor leaves as it is. -/
theorem removePredAt_code (hs : f.Sound) (h : (removePredAt b idx).run f = (.ok (), g)) :
    (∀ i, g.kind i = f.kind i) ∧ (∀ c, g.instsOf c = f.instsOf c) ∧ g.blocks.size = f.blocks.size ∧
      g.values.size = f.values.size := by
  obtain ⟨-, -, -, hbecomes, -⟩ := removePredAt_spec hs h
  refine ⟨fun i => ?_, fun c => ?_, hbecomes.blocks_size, hbecomes.values_size⟩
  · unfold Function.kind
    rw [hbecomes.inst, withoutSlot]
    split <;> rfl
  · unfold Function.instsOf
    rw [hbecomes.block]
    exact Function.proj_update (by rfl) _

/-- Moving all edges into a block succeeds when its predecessors have as many arms to it as the list has entries. -/
theorem succeeds_forM_moveEdge {preds : List BlockId} (hs : f.Sound) (hne : target ≠ b)
    (htarget : target < f.blocks.size)
    (hphis : ∀ e ∈ carried, (f.kind e.1).isPhi = true ∧ (∃ c, e.1 ∈ f.instsOf c) ∧ e.2 < f.values.size)
    (hnodup : (carried.map Prod.fst).Nodup)
    (harms : ∀ p ∈ preds, ∃ t, f.terminator p = .ok t ∧ (f.kind t).targets.count b = preds.count p) :
    Succeeds (preds.forM (moveEdge b target carried)) f := by
  refine Succeeds.forM (P := fun rest k => ∀ done, preds = done ++ rest → Moving f k b target carried done)
    (fun p rest k hsuffix hk => ?_) ?_
  · obtain ⟨done, hdone⟩ := hsuffix
    have hmoving := hk done hdone.symm
    obtain ⟨t, ht, hcount⟩ := harms p (hdone ▸ List.mem_append_right _ List.mem_cons_self)
    refine ⟨succeeds_moveEdge hmoving ht ?_ htarget fun e he => ?_, fun k' hrun done' hdone' => ?_⟩
    · rw [hcount, ← hdone, List.count_append, List.count_cons_self]
      omega
    · obtain ⟨-, ⟨c, hc⟩, hv⟩ := hphis e he
      rw [hmoving.becomes.values_size]
      exact ⟨hmoving.sound.lt_insts_size (hmoving.instsOf_eq c ▸ hc), hv⟩
    · obtain rfl : done' = done ++ [p] := by
        rw [← hdone, List.append_cons] at hdone'
        exact (List.append_cancel_right hdone').symm
      exact moveEdge_spec hne htarget (fun e he => (hphis e he).1) hnodup hmoving hrun
  · intro done hdone
    rw [List.self_eq_append_left.1 hdone]
    exact .refl hs

/-- Taking a block out succeeds once it is known to hold nothing but a jump. -/
theorem succeeds_takeOut (hs : f.Sound) (hr : f.Regular) (hb : b ∈ f.layout) (hinsts : f.instsOf b = [j])
    (hkind : f.kind j = .jump target) (hne : target ≠ b) (htarget : target ∈ f.layout)
    (hidx : f.predIndex? target b = some idx) : Succeeds (do
      let carried ← (f.phis target).mapM fun phi => do return (phi, ← ask (·.operand phi idx))
      removePredAt target idx
      (f.preds b).forM (moveEdge b target carried)
      removeBlocks [b]
      return 1) f := by
  obtain ⟨hlt, -⟩ := List.getElem?_eq_some_iff.1 (Function.getElem?_of_predIndex hidx)
  have hslot : ∀ phi ∈ f.phis target, idx < (f.operands phi).length := by
    intro phi hphi
    obtain ⟨hin, hisphi⟩ := (hr.mem_phis htarget).1 hphi
    rw [hr.slots target htarget phi hin hisphi]
    exact hlt
  refine .bind (.mapM (P := fun _ g => g = f) ?_ rfl) fun carried g hmapM => ?_
  · rintro phi rest g hsuffix rfl
    have hlt' := hslot phi (hsuffix.subset List.mem_cons_self)
    refine ⟨succeeds_ask_bind (operand_of_getElem? (List.getElem?_eq_getElem hlt')) (.pure _ _), fun v g' hrun => ?_⟩
    obtain ⟨w, g₁, hask, hpure⟩ := bind_eq_ok hrun
    cases hpure
    exact (ask_eq_ok hask).2.symm
  obtain ⟨rfl, hfst, hall⟩ := mapM_operand_spec hmapM
  refine .bind (succeeds_removePredAt hs hlt hslot) fun _ f₁ hremove => ?_
  have hs₁ := sound_removePredAt hs hremove
  obtain ⟨hkind₁, hinsts₁, hblocks₁, hvalues₁⟩ := removePredAt_code hs hremove
  have hphis : ∀ d ∈ carried, d.1 ∈ f.phis target := fun d hd => hfst ▸ List.mem_map_of_mem hd
  have hmoved : ∀ d ∈ carried,
      (f₁.kind d.1).isPhi = true ∧ (∃ c, d.1 ∈ f₁.instsOf c) ∧ d.2 < f₁.values.size := by
    intro d hd
    rw [hkind₁, hvalues₁]
    refine ⟨f.isPhi_of_mem_phis (hphis d hd), ⟨target, ?_⟩,
      lt_size_of_mem_operands hs.indexed (List.mem_of_getElem? (hall d hd))⟩
    rw [hinsts₁]
    exact (List.takeWhile_sublist _).subset (hphis d hd)
  have hnodup : (carried.map Prod.fst).Nodup := by
    rw [hfst]
    exact (hs.nodup target).sublist (List.takeWhile_sublist _)
  have htarget₁ : target < f₁.blocks.size := hblocks₁ ▸ ((hs.mem_layout target).1 htarget).1
  refine .bind (succeeds_forM_moveEdge hs₁ hne htarget₁ hmoved hnodup fun p hp => ?_) fun _ f₂ hmove => ?_
  · have hp' := ((hr.mem_preds_iff hb).1 hp).1
    obtain ⟨t, ht⟩ := exists_terminator hr hp'
    obtain ⟨hlast, hterm⟩ := terminator_eq_ok.1 ht
    refine ⟨t, terminator_eq_ok.2 ⟨by rw [hinsts₁]; exact hlast, by rw [hkind₁]; exact hterm⟩, ?_⟩
    rw [hkind₁, ← arms_of_terminator ht, hr.preds b hb p, if_pos hp']
  · have hmoving := forM_moveEdge_spec hs₁ hne htarget₁ (fun d hd => (hmoved d hd).1) hnodup hmove
    refine .bind (succeeds_removeBlocks hmoving.sound (fun c hc => ?_) fun c hc i hi r hresult => ?_) fun _ _ _ => .pure _ _
    · rw [List.mem_singleton.1 hc, hmoving.becomes.blocks_size, hblocks₁]
      exact ((hs.mem_layout b).1 hb).1
    · -- The block holds a jump only, and a jump gives nothing.
      rw [List.mem_singleton.1 hc, hmoving.instsOf_eq, hinsts₁, hinsts] at hi
      rw [List.mem_singleton.1 hi, hmoving.result] at hresult
      have hgives := hs₁.gives j r hresult
      rw [hkind₁, hkind] at hgives
      cases hgives

theorem succeeds_elideBlock {e : BlockId} (hs : f.Sound) (hr : f.Regular) (hb : b < f.blocks.size) :
    Succeeds (elideBlock e b) f := by
  refine .get_bind ?_
  split
  · exact .pure _ _
  rename_i hkeep
  have hremoved : (f.block b).removed = false := by
    simp only [Bool.or_eq_true, decide_eq_true_eq, not_or, Bool.not_eq_true] at hkeep
    exact hkeep.2
  have hlisted : b ∈ f.layout := (hs.mem_layout b).2 ⟨hb, hremoved⟩
  split
  case h_2 => exact .pure _ _
  rename_i j hinsts
  split
  case h_2 => exact .pure _ _
  rename_i target hkind
  dsimp only
  split
  · exact .pure _ _
  rename_i hapart
  have hne : target ≠ b := by
    simp only [Bool.or_eq_true, decide_eq_true_eq, not_or] at hapart
    exact hapart.1
  have harms : target ∈ f.arms b := by
    unfold Function.arms
    rw [hinsts, List.getLast?_singleton]
    dsimp only
    rw [hkind]
    exact List.mem_cons_self
  obtain ⟨htarget, idx, hidx⟩ := predIndex?_of_mem_arms hs hr hlisted harms
  have hsplice := succeeds_takeOut hs hr hlisted hinsts hkind hne htarget hidx
  split
  · refine .bind (succeeds_sharesBranch fun p hp => exists_terminator hr ((hr.mem_preds_iff hlisted).1 hp).1)
      fun found g hshares => ?_
    obtain ⟨rfl, -⟩ := sharesBranch_spec hshares
    split
    · exact .pure _ _
    · rw [hidx]
      exact hsplice
  · rw [hidx]
    exact hsplice

theorem succeeds_elideEmptyBlocks (hf : f.StrictForm) : Succeeds elideEmptyBlocks f := by
  obtain ⟨e, rest, hlayout, -⟩ := hf.regular.entry
  have hhead : f.layout.head? = some e := by rw [hlayout]; rfl
  have hentry : f.entry = .ok e := by
    unfold Function.entry
    rw [hhead]
    rfl
  refine succeeds_ask_bind hentry (.get_bind ?_)
  refine succeeds_countOver (P := fun g => g.StrictForm ∧ g.layout.head? = some e ∧ g.blocks.size = f.blocks.size)
    (fun b hb g hg => ?_) ⟨hf, hhead, rfl⟩
  obtain ⟨hg, hghead, hsize⟩ := hg
  have hb' : b < g.blocks.size := hsize ▸ ((hf.sound.mem_layout b).1 hb).1
  refine ⟨succeeds_elideBlock hg.sound hg.regular hb', fun n g' hrun => ?_⟩
  obtain ⟨hshrinks, hhead', hsize'⟩ := shrinks_elideBlock hg hghead hb' hrun
  exact ⟨hshrinks.strictForm, hhead', hsize'.trans hsize⟩

/-! ## Pruning -/

/-- The graph of a regular function can be explored. -/
theorem explorable_cfg (hs : f.Sound) (hw : f.Wired) : f.cfg.Explorable := by
  obtain ⟨e, he⟩ := hw.entry
  intro b hb
  have hreach := (Function.reachable_iff he b).1 hb
  exact ⟨((hs.mem_layout b).1 (hw.listed b hreach)).1, hw.succs b hreach⟩

/-- Cutting the edges of an unreachable block succeeds. -/
theorem succeeds_cutEdges {order : ReversePostorder} {d : BlockId} (hs : f.Sound) (hr : f.Regular)
    (horder : ∀ b, order.isReachable b = true ↔ f.Reach b) (h : f.Trimmed g) (hd : d ∈ f.layout) (hdead : ¬ f.Reach d) :
    Succeeds (cutEdges order d) g ∧ ∀ g', (cutEdges order d).run g = (.ok (), g') → f.Trimmed g' := by
  have hsuccs : g.successors d = .ok (f.arms d) := by
    obtain ⟨t, ht⟩ := exists_terminator hr hd
    obtain ⟨hlast, hterm⟩ := terminator_eq_ok.1 ht
    have hgt : g.terminator d = .ok t :=
      terminator_eq_ok.2 ⟨by rw [h.insts]; exact hlast, by rw [h.kind]; exact hterm⟩
    unfold Function.successors
    rw [hgt, ← h.arms, arms_of_terminator hgt]
    rfl
  simp only [Succeeds, cutEdges, run_ask_bind (·.successors d) hsuccs]
  refine Succeeds.forM_and_keeps (fun c hc k hk => ?_) h
  split
  · rename_i hreach
    constructor
    · refine .get_bind ?_
      split
      · rename_i idx hidx
        obtain ⟨hlt, -⟩ := List.getElem?_eq_some_iff.1 (Function.getElem?_of_predIndex hidx)
        refine succeeds_removePredAt hk.sound hlt fun phi hphi => ?_
        rw [hk.slots c ((horder c).1 hreach) phi (hk.phis c ▸ hphi)]
        exact hlt
      · exact .pure _ _
    · intro k' hrun
      rw [run_get_bind] at hrun
      split at hrun
      · rename_i idx hidx
        exact (trimmed_removePredAt hs hk hdead hidx hrun).1
      · cases hrun
        exact hk
  · refine ⟨.pure _ _, fun k' hrun => ?_⟩
    cases hrun
    exact hk

/-- Nothing reachable reads what an unreachable block computes. -/
theorem not_reach_of_reads {b : BlockId} {r : ValueId} (hs : f.Sound) (hr : f.Regular) (hstrict : f.Strict)
    (h : f.Trimmed g) (hcounts : ∀ c, f.Reach c → ∀ p, ¬ f.Reach p → (g.preds c).count p = 0) (hb : ¬ f.Reach b)
    (hi : i ∈ f.instsOf b) (hresult : f.result? i = some r) (hj : j ∈ f.instsOf c) (hread : r ∈ g.operands j) :
    ¬ f.Reach c := by
  intro hc
  have hkind := (hs.kind_of_result i r hresult).2
  have hplace := (hs.placed b i).1 hi
  -- A block in which the result is available is reachable only if its own block is.
  have havail : ∀ {d before}, f.Reach d → (∀ k ∈ before, k ∈ f.instsOf d) → f.Available d before r → f.Reach b := by
    intro d before hd hbefore havail
    rcases havail i hkind with hin | ⟨d', hd', -, hdom⟩
    · obtain rfl := Option.some.inj (hplace.symm.trans ((hs.placed d i).1 (hbefore i hin)))
      exact hd
    · obtain rfl := Option.some.inj (hplace.symm.trans hd')
      exact hdom.reach hd
  cases hphi : (f.kind j).isPhi with
  | false =>
    obtain ⟨before, after, hinsts⟩ := List.append_of_mem hj
    rw [h.operands j hphi] at hread
    refine hb (havail hc (fun k hk => ?_) (hstrict.operand c before j after hc hinsts hphi r hread))
    rw [hinsts]
    exact List.mem_append_left _ hk
  | true =>
    have hlisted := hr.mem_layout_of_reach hs hc
    have hphis := (hr.mem_phis hlisted).2 ⟨hj, hphi⟩
    obtain ⟨slot, hslot⟩ := List.mem_iff_getElem?.1 hread
    obtain ⟨hlt, -⟩ := List.getElem?_eq_some_iff.1 hslot
    rw [h.slots c hc j hphis] at hlt
    have hfeeds : g.Feeds c j (g.preds c)[slot] r :=
      List.mem_of_getElem? (i := slot) (List.getElem?_zip_eq_some.2 ⟨List.getElem?_eq_getElem hlt, hslot⟩)
    have hp : f.Reach (g.preds c)[slot] := by
      by_contra hnot
      exact List.count_eq_zero.1 (hcounts c hc _ hnot) (List.getElem_mem hlt)
    exact hb (havail hp (fun k hk => List.dropLast_subset _ hk)
      (hstrict.incoming c j hc hj hphi _ r hp (h.feeds c hc j hphis _ r hfeeds)))

/-- Only listed blocks hold instructions. -/
theorem mem_layout_of_mem_insts (ht : f.Tidy) (hi : i ∈ f.instsOf b) : b ∈ f.layout := by
  refine (ht.sound.mem_layout b).2 ⟨lt_size_of_blockOf? ht.sound ((ht.sound.placed b i).1 hi), ?_⟩
  cases hremoved : (f.block b).removed with
  | false => rfl
  | true =>
    rw [ht.emptied b hremoved] at hi
    cases hi

theorem succeeds_pruneUnreachable (hf : f.StrictForm) (ht : f.Tidy) : Succeeds pruneUnreachable f := by
  obtain ⟨hs, hr, hstrict⟩ := hf
  obtain ⟨order, horder⟩ := ReversePostorder.ofCfg_total (explorable_cfg hs (hr.wired hs))
  refine succeeds_ask_bind horder (.get_bind ?_)
  dsimp only
  split
  · exact .pure _ _
  have hreach := isReachable_iff_reach hr horder
  have hdead := mem_unreachable hr horder
  refine .bind (.forM_of_keeps (P := f.Trimmed) (fun d hd g hg => ?_) (.refl hs hr)) fun _ g hcut => ?_
  · obtain ⟨hlisted, hunreached⟩ := (hdead d).1 hd
    exact succeeds_cutEdges hs hr hreach hg hlisted hunreached
  obtain ⟨htrimmed, hcounts⟩ := trimmed_forM_cutEdges hs hr hreach (fun d hd => (hdead d).1 hd)
    (hs.layout_nodup.filter _) hcut
  have htidy : g.Tidy := Preserves.forM (fun d _ => stable_tidy.toSimplified.cutEdges order d) ht hcut
  refine .bind (succeeds_removeBlocks htrimmed.sound (fun b hb => ?_) fun b hb i hi r hresult j hj => ?_)
    fun _ _ _ => .pure _ _
  · rw [htrimmed.blocks_size]
    exact ((hs.mem_layout b).1 ((hdead b).1 hb).1).1
  · -- The reader is placed in a block that is listed.
    obtain ⟨c, hc⟩ := Option.ne_none_iff_exists'.1 (htidy.tended.placed_of_mem hj)
    have hin := (htidy.sound.placed c j).2 hc
    have hlisted := mem_layout_of_mem_insts htidy hin
    refine ⟨c, (hdead c).2 ⟨htrimmed.layout ▸ hlisted, ?_⟩, hin⟩
    rw [htrimmed.insts] at hi hin
    rw [htrimmed.result] at hresult
    refine not_reach_of_reads hs hr hstrict htrimmed (fun c hc p hp => ?_) ((hdead b).1 hb).2 hi hresult hin hj
    rw [hcounts c hc p]
    split
    · rfl
    · rename_i hp'
      refine List.count_eq_zero.2 fun hin => hp' ?_
      exact (hdead p).2 ⟨((hr.mem_preds_iff (hr.mem_layout_of_reach hs hc)).1 hin).1, hp⟩

/-! ## Phis with one slot -/

/-- A phi with one slot can be exchanged for its operand: where its block is reachable, it is not its own operand. -/
theorem succeeds_removeSinglePhi (hf : f.StrictForm) (ht : f.Tended) (hb : f.Reach b) (hpreds : f.preds b = [p])
    (hphi : phi ∈ f.phis b) : Succeeds (removeSinglePhi b phi) f := by
  obtain ⟨hs, hr, hstrict⟩ := hf
  have hlisted := hr.mem_layout_of_reach hs hb
  obtain ⟨hin, hisphi⟩ := (hr.mem_phis hlisted).1 hphi
  have hplace := (hs.placed b phi).1 hin
  have hkind : f.kind phi = .phi := by
    cases hk : f.kind phi <;> rw [hk] at hisphi <;> first | rfl | cases hisphi
  obtain ⟨v, hv⟩ : ∃ v, f.operands phi = [v] := by
    rw [← List.length_eq_one_iff, hr.slots b hlisted phi hin hisphi, hpreds]
    rfl
  obtain ⟨r, hresult⟩ : ∃ r, f.result? phi = some r :=
    Option.ne_none_iff_exists'.1 (ht.valued phi (by rw [hplace]; simp) (by rw [hkind]; rfl))
  obtain ⟨hlt, hrkind⟩ := hs.kind_of_result phi r hresult
  have hne : v ≠ r := by
    rintro rfl
    obtain ⟨d, hd, hdb, -⟩ := hstrict.source hs hr hpreds hphi hv hb hrkind
    exact hdb (Option.some.inj (hd.symm.trans hplace))
  refine .get_bind ?_
  simp only [hv, hresult, if_neg hne]
  refine .bind (succeeds_replaceAllUses hs.indexed hlt (lt_size_of_mem_operands hs.indexed (hv ▸ List.mem_cons_self)))
    fun count f₁ hreplace => ?_
  obtain ⟨-, -, hbecomes, hindexed⟩ := replaceAllUses_spec hne.symm hs.indexed hreplace
  have hs₁ : f₁.Sound := stable_sound.replaceAllUses r v hs hreplace
  refine succeeds_removeInst_of_sound (b := b) hs₁ ?_ fun r' hr' j hj => ?_
  · rw [Function.instsOf, hbecomes.block]
    exact hin
  · -- All slots that held the result hold the operand now.
    obtain rfl : r = r' := by
      rw [Function.result?, hbecomes.inst] at hr'
      exact Option.some.inj (hresult.symm.trans hr')
    rw [Function.operands, hbecomes.inst] at hj
    obtain ⟨w, -, hw⟩ := List.mem_map.1 hj
    unfold substituted at hw
    split at hw
    · exact hne hw
    · exact absurd hw ‹_›

/-- Exchanging a phi keeps the blocks reachable. -/
theorem connected_removeSinglePhi (hf : f.StrictForm) (hc : f.Connected) (hb : b ∈ f.layout)
    (hpreds : f.preds b = [p]) (hphi : phi ∈ f.phis b) (h : (removeSinglePhi b phi).run f = (.ok (), g)) :
    g.Connected := by
  obtain ⟨-, x, v, hforward⟩ := removeSinglePhi_spec hf.sound hb hpreds hphi h
  intro c hlisted
  exact hforward.reached hf.sound hf.regular (hc c (hforward.layout ▸ hlisted))

/-- What the exchange of phis needs and keeps. -/
structure Trim (f : Function) : Prop where
  strictForm : f.StrictForm
  tidy : f.Tidy
  connected : f.Connected

theorem succeeds_forM_removeSinglePhi (h : Trim f) (hb : b ∈ f.layout) (hpreds : f.preds b = [p]) :
    Succeeds ((f.phis b).forM (removeSinglePhi b)) f ∧
      ∀ g, ((f.phis b).forM (removeSinglePhi b)).run f = (.ok (), g) →
        Shrinks f (f.phis b).length g ∧ Trim g ∧ g.layout = f.layout := by
  -- The phis that are still to be exchanged are still phis of the block, and the others are counted.
  let P := fun (rest : List InstId) (g : Function) =>
    (Trim g ∧ g.layout = f.layout) ∧ g.preds b = [p] ∧ (∀ i ∈ rest, i ∈ g.phis b) ∧
      ∃ n, n + rest.length = (f.phis b).length ∧ Shrinks f n g
  have hnodup : (f.phis b).Nodup := (h.strictForm.sound.nodup b).sublist (List.takeWhile_sublist _)
  have hstart : P (f.phis b) f := ⟨⟨h, rfl⟩, hpreds, fun _ hi => hi, 0, Nat.zero_add _, .refl h.strictForm⟩
  have hkeeps : ∀ phi rest g g', (phi :: rest) <:+ f.phis b → P (phi :: rest) g →
      (removeSinglePhi b phi).run g = (.ok (), g') → P rest g' := by
    rintro phi rest g g' hsuffix ⟨⟨hg, hlayout⟩, hgpreds, hphis, n, hn, hshrunk⟩ hrun
    have hphi := hphis phi List.mem_cons_self
    have hb' : b ∈ g.layout := hlayout ▸ hb
    obtain ⟨hshrinks, hlayout', hgpreds', hphis'⟩ := shrinks_removeSinglePhi hg.strictForm hb' hgpreds hphi hrun
    refine ⟨⟨⟨hshrinks.strictForm, stable_tidy.toSimplified.removeSinglePhi b phi hg.tidy hrun,
      connected_removeSinglePhi hg.strictForm hg.connected hb' hgpreds hphi hrun⟩, hlayout'.trans hlayout⟩, hgpreds',
      fun i hi => ?_, n + 1, ?_, hshrunk.trans hshrinks⟩
    · rw [hphis', List.mem_filter, bne_iff_ne]
      refine ⟨hphis i (List.mem_cons_of_mem _ hi), ?_⟩
      rintro rfl
      exact (List.nodup_cons.1 (hnodup.sublist hsuffix.sublist)).1 hi
    · rw [List.length_cons] at hn
      omega
  constructor
  · refine .forM (P := P) (fun phi rest g hsuffix hg => ⟨?_, fun g' hrun => hkeeps phi rest g g' hsuffix hg hrun⟩) hstart
    obtain ⟨⟨hg, hlayout⟩, hgpreds, hphis, -⟩ := hg
    exact succeeds_removeSinglePhi hg.strictForm hg.tidy.tended (hg.connected b (hlayout ▸ hb)) hgpreds
      (hphis phi List.mem_cons_self)
  · intro g hrun
    obtain ⟨⟨hg, hlayout⟩, -, -, n, hn, hshrinks⟩ := forM_keeps hkeeps hstart hrun
    obtain rfl : n = (f.phis b).length := hn
    exact ⟨hshrinks, hg, hlayout⟩

/-- What the exchange of phis does at a block. -/
def exchangePhis (b : BlockId) : Edit Nat := do
  let f ← get
  if (f.preds b).length ≠ 1 then return 0
  let phis := f.phis b
  phis.forM (removeSinglePhi b)
  return phis.length

/-- The exchange of phis, block by block. -/
theorem removeSinglePredPhis_eq : removeSinglePredPhis = (do countOver (← get).layout exchangePhis) := rfl

/-- Exchanging the phis of a block succeeds where it has one predecessor, and where it has not. -/
theorem succeeds_exchangePhis (h : Trim f) (hb : b ∈ f.layout) : Succeeds (exchangePhis b) f ∧
    ∀ n g, (exchangePhis b).run f = (.ok n, g) → Shrinks f n g ∧ Trim g ∧ g.layout = f.layout := by
  constructor
  · refine .get_bind ?_
    split
    · exact .pure _ _
    · rename_i hone
      obtain ⟨p, hp⟩ := List.length_eq_one_iff.1 (not_not.1 hone)
      exact .bind (succeeds_forM_removeSinglePhi h hb hp).1 fun _ _ _ => .pure _ _
  · intro n g hrun
    unfold exchangePhis at hrun
    rw [run_get_bind] at hrun
    split at hrun
    · cases hrun
      exact ⟨.refl h.strictForm, h, rfl⟩
    · rename_i hone
      obtain ⟨p, hp⟩ := List.length_eq_one_iff.1 (not_not.1 hone)
      obtain ⟨⟨⟩, g, hall, hpure⟩ := bind_eq_ok hrun
      cases hpure
      exact (succeeds_forM_removeSinglePhi h hb hp).2 g hall

/-- Exchanging phis with one slot succeeds when every block is reachable. -/
theorem succeeds_removeSinglePredPhis (h : Trim f) : Succeeds removeSinglePredPhis f ∧
    ∀ n g, removeSinglePredPhis.run f = (.ok n, g) → Shrinks f n g ∧ Trim g := by
  rw [removeSinglePredPhis_eq]
  constructor
  · refine .get_bind (succeeds_countOver (P := fun g => Trim g ∧ g.layout = f.layout) (fun b hb g hg => ?_) ⟨h, rfl⟩)
    obtain ⟨hsucceeds, hkeeps⟩ := succeeds_exchangePhis hg.1 (hg.2 ▸ hb)
    refine ⟨hsucceeds, fun n g' hrun => ?_⟩
    obtain ⟨-, hg', hlayout⟩ := hkeeps n g' hrun
    exact ⟨hg', hlayout.trans hg.2⟩
  · intro n g hrun
    rw [run_get_bind] at hrun
    have hend := shrinks_countOver (P := fun g => Trim g ∧ g.layout = f.layout)
      (fun b hb g g' n _ hg hrun => ?_) h.strictForm ⟨h, rfl⟩ hrun
    · exact ⟨hend.1, hend.2.1⟩
    · obtain ⟨hshrinks, hg', hlayout⟩ := (succeeds_exchangePhis hg.1 (hg.2 ▸ hb)).2 n g' hrun
      exact ⟨hshrinks, hg', hlayout.trans hg.2⟩

/-! ## All steps -/

/-- One repetition of the steps succeeds, and after it every block is reachable. -/
theorem succeeds_simplifyCycle (hf : f.StrictForm) (ht : f.Tidy) : Succeeds simplifyCycle f ∧
    ∀ n g, simplifyCycle.run f = (.ok n, g) → Shrinks f n g ∧ Trim g := by
  have htidy := stable_tidy.toSimplified
  constructor
  · refine .bind (succeeds_foldBranches hf) fun _ f₁ hfold => ?_
    have hf₁ := (shrinks_foldBranches hf hfold).strictForm
    have ht₁ := htidy.foldBranches ht hfold
    refine .bind (succeeds_elideEmptyBlocks hf₁) fun _ f₂ helide => ?_
    have hf₂ := (shrinks_elideEmptyBlocks hf₁ helide).strictForm
    have ht₂ := htidy.elideEmptyBlocks ht₁ helide
    refine .bind (succeeds_pruneUnreachable hf₂ ht₂) fun _ f₃ hprune => ?_
    obtain ⟨hshrinks, hc⟩ := shrinks_pruneUnreachable hf₂ hprune
    exact .bind (succeeds_removeSinglePredPhis ⟨hshrinks.strictForm, htidy.pruneUnreachable ht₂ hprune, hc⟩).1
      fun _ _ _ => .pure _ _
  · intro n g hrun
    unfold simplifyCycle at hrun
    obtain ⟨folded, f₁, hfold, hrun⟩ := bind_eq_ok hrun
    obtain ⟨elided, f₂, helide, hrun⟩ := bind_eq_ok hrun
    obtain ⟨pruned, f₃, hprune, hrun⟩ := bind_eq_ok hrun
    obtain ⟨removed, f₄, hremove, hpure⟩ := bind_eq_ok hrun
    cases hpure
    have h₁ := shrinks_foldBranches hf hfold
    have h₂ := shrinks_elideEmptyBlocks h₁.strictForm helide
    obtain ⟨h₃, hc⟩ := shrinks_pruneUnreachable h₂.strictForm hprune
    have ht₃ := htidy.pruneUnreachable (htidy.elideEmptyBlocks (htidy.foldBranches ht hfold) helide) hprune
    obtain ⟨h₄, htrim⟩ := (succeeds_removeSinglePredPhis ⟨h₃.strictForm, ht₃, hc⟩).2 _ _ hremove
    exact ⟨((h₁.trans h₂).trans h₃).trans h₄, htrim⟩

/-- The repetitions of the steps without a limit: they end with the first one that counts nothing. -/
inductive Settles : Function → Nat → Function → Prop
  | idle {f g : Function} (h : simplifyCycle.run f = (.ok 0, g)) : Settles f 0 g
  | again {f g g' : Function} {n count : Nat} (h : simplifyCycle.run f = (.ok n, g)) (hn : n ≠ 0)
    (hrest : Settles g count g') : Settles f (n + count) g'

/-- A limit that exceeds the number of blocks, branches and phis is not reached: the last repetition counts nothing. -/
theorem simplifyWithin_settles {limit : Nat} (hf : f.StrictForm) (ht : f.Tidy) (hlimit : simplifiable f < limit) :
    ∃ n g, (simplifyWithin limit).run f = (.ok n, g) ∧ Settles f n g ∧ Shrinks f n g ∧ Trim g ∧
      simplifyCycle.run g = (.ok 0, g) := by
  induction limit generalizing f with
  | zero => cases hlimit
  | succ limit ih =>
    obtain ⟨⟨n, f₁, hcycle⟩, hcycles⟩ := succeeds_simplifyCycle hf ht
    obtain ⟨hshrinks, htrim⟩ := hcycles n f₁ hcycle
    unfold simplifyWithin
    rw [run_bind, hcycle]
    dsimp only
    by_cases hn : n = 0
    · subst hn
      obtain rfl := hshrinks.idle rfl
      exact ⟨0, f₁, by rw [if_pos rfl]; rfl, .idle hcycle, hshrinks, htrim, hcycle⟩
    · have hbound := hshrinks.bound
      obtain ⟨m, g, hrun, hsettles, hshrinks', htrim', hidle⟩ := ih htrim.strictForm htrim.tidy (by omega)
      refine ⟨n + m, g, ?_, .again hcycle hn hsettles, hshrinks.trans hshrinks', htrim', hidle⟩
      rw [if_neg hn, run_bind, hrun]
      rfl

/-- Simplification comes to an end. -/
theorem simplify_settles (hf : f.StrictForm) (ht : f.Tidy) : ∃ n g, simplify.run f = (.ok n, g) ∧ Settles f n g ∧
    Shrinks f n g ∧ Trim g ∧ simplifyCycle.run g = (.ok 0, g) :=
  simplifyWithin_settles hf ht (Nat.lt_succ_self _)

/-- A well-formed function with nothing unreachable. -/
structure Exchangeable (f : Function) : Prop where
  wellFormed : f.WellFormed
  tidy : f.Tidy
  connected : f.Connected

/-- Simplification succeeds, and after it every block is reachable. -/
theorem succeeds_simplify (hwf : f.WellFormed) (ht : f.Tidy) : Succeeds simplify f ∧
    ∀ count g, simplify.run f = (.ok count, g) → Exchangeable g := by
  obtain ⟨n, g, hrun, -, -, htrim, -⟩ := simplify_settles hwf.strictForm ht
  refine ⟨⟨n, g, hrun⟩, fun count g' hrun' => ?_⟩
  cases hrun.symm.trans hrun'
  exact ⟨(simplify_keeps hwf hrun).1, htrim.tidy, htrim.connected⟩

end Edit

end SsaCompiler
