import SsaCompiler.Proofs.Ir.NeededPhis
import SsaCompiler.Proofs.Ir.PromotedSlots
import SsaCompiler.Proofs.Ir.TotalRenaming
import SsaCompiler.Proofs.Ir.TotalSimplify

/-!
# Promotion succeeds

No step of promoting slots reports an error on a well-formed function. After the walk nothing reads the address of a
slot, as all blocks are reachable and the loads and stores are gone. A phi that is taken out as dead is not needed, so
only phis that go with it read it.
-/

set_option autoImplicit false

namespace SsaCompiler

namespace Edit

open Edits

variable {f c : Function}

/-! ## Questions -/

variable {α : Type}

/-- Tests that have an answer for each element. -/
theorem exists_allM {test : α → Outcome Bool} {l : List α} (h : ∀ a ∈ l, ∃ passed, test a = .ok passed) :
    ∃ passed, allM test l = .ok passed := by
  induction l with
  | nil => exact ⟨true, rfl⟩
  | cons a rest ih =>
    obtain ⟨passed, hpassed⟩ := h a List.mem_cons_self
    unfold allM
    rw [hpassed]
    cases passed with
    | true => exact ih fun b hb => h b (List.mem_cons_of_mem _ hb)
    | false => exact ⟨false, rfl⟩

/-- Every use can be asked whether it is a plain access. -/
theorem exists_isPlainAccess (hs : f.Sound) (u : Use) : ∃ passed, isPlainAccess f u = .ok passed := by
  have hplain : (∀ n, (f.kind u.user).fits n = true → 1 < n) →
      ∃ passed, (if u.slot = 0 && (f.blockOf? u.user).isSome then do
        let index ← f.operand u.user 1
        return f.const? index == some 0
      else return false : Outcome Bool) = .ok passed := by
    intro hfits
    split
    · rename_i hplaced
      obtain ⟨b, hb⟩ := Option.isSome_iff_exists.1 (Bool.and_eq_true_iff.1 hplaced).2
      obtain ⟨index, hindex, -⟩ := exists_operand 1 hs ((hs.placed b u.user).2 hb) hfits
      exact Outcome.exists_bind ⟨index, hindex⟩ fun _ _ => ⟨_, rfl⟩
    · exact ⟨false, rfl⟩
  unfold isPlainAccess
  split
  · rename_i hkind
    exact hplain (by rw [hkind]; simp [InstKind.fits])
  · rename_i hkind
    exact hplain (by rw [hkind]; simp [InstKind.fits])
  · exact ⟨false, rfl⟩

/-- The slots that can be promoted can be asked for. -/
theorem exists_promotableSlots (hs : f.Sound) : ∃ slots, promotableSlots f = .ok slots := by
  have heach : ∀ i, ∃ address, promotable? f i = .ok address := by
    intro i
    unfold promotable?
    split
    · refine Outcome.exists_bind (exists_allM fun u _ => exists_isPlainAccess hs u) fun passed _ => ?_
      split
      · exact ⟨_, rfl⟩
      · exact ⟨_, rfl⟩
    · exact ⟨_, rfl⟩
  refine Outcome.exists_bind (Outcome.exists_mapM fun i _ => ?_) fun found _ => ⟨_, rfl⟩
  exact Outcome.exists_bind (heach i) fun address _ => ⟨_, rfl⟩

/-- The blocks that store to a slot can be asked for. -/
theorem exists_storeBlocks (hs : f.Sound) (address : ValueId) : ∃ blocks, storeBlocks f address = .ok blocks := by
  refine Outcome.exists_bind (Outcome.exists_mapM fun i hi => ?_) fun found _ => ⟨_, rfl⟩
  obtain ⟨b, -, hin⟩ := List.mem_flatMap.1 hi
  split
  · rename_i hkind
    obtain ⟨base, hbase, -⟩ := exists_operand 0 hs hin (by rw [hkind]; simp [InstKind.fits])
    exact Outcome.exists_bind ⟨base, hbase⟩ fun _ _ => ⟨_, rfl⟩
  · exact ⟨_, rfl⟩

/-! ## Placing phis -/

/-- What placing phis needs and keeps. -/
def Plantable (f : Function) (zero : ValueId) (c : Function) : Prop :=
  (∃ new, f.Reshaped c new (fun _ => false) id) ∧ zero < c.values.size

/-- Placing a phi succeeds. -/
theorem Plantable.newPhi {zero : ValueId} {y : BlockId} (h : Plantable f zero c) (hs : f.Sound) (hphis : f.PhisFirst)
    (hy : y ∈ f.layout) : Succeeds (do
      let phi ← createInst .phi (List.replicate ((← get).preds y).length zero) true
      insertPhi y phi
      return phi) c ∧ ∀ phi c', (do
      let phi ← createInst .phi (List.replicate ((← get).preds y).length zero) true
      insertPhi y phi
      return phi : Edit InstId).run c = (.ok phi, c') → Plantable f zero c' := by
  obtain ⟨⟨new, hreshaped⟩, hzero⟩ := h
  refine ⟨.get_bind (.bind (succeeds_createInst fun v hv => ?_) fun phi c₁ hcreate => ?_), fun phi c' hrun => ?_⟩
  · rw [List.eq_of_mem_replicate hv]
    exact hzero
  · obtain ⟨rfl, hcreated⟩ := created_createInst hcreate
    have hnew := hcreated.inst c.insts.size
    rw [Function.update_self] at hnew
    refine .bind (succeeds_insertPhi ?_ ?_ ?_ ?_) fun _ _ _ => .pure _ _
    · rw [Function.kind, hnew]
      rfl
    · rw [Function.blockOf?, hnew]
    · rw [hcreated.blocks_size, hreshaped.blocks_size]
      exact ((hs.mem_layout y).1 hy).1
    · rw [hcreated.insts_size]
      exact Nat.lt_succ_self _
  · obtain ⟨new', hgrown, -⟩ := grown_insertPhi hreshaped hs hphis hy 0 hrun
    exact ⟨⟨new', hgrown.reshaped⟩, Nat.lt_of_lt_of_le hzero hgrown.values_size⟩

/-- Placing the phis of a slot succeeds. -/
theorem Plantable.placePhis {tree : DominatorTree} {zero : ValueId} (htree : FrontierBounds f tree) (hs : f.Sound)
    (hphis : f.PhisFirst) {limit : Nat} : ∀ {placed queued : NatSet} {work : List BlockId} {c : Function}, Plantable f zero c →
      Succeeds (Edit.placePhis tree zero limit placed queued work) c ∧ ∀ phis c',
        (Edit.placePhis tree zero limit placed queued work).run c = (.ok phis, c') → Plantable f zero c' := by
  have hnone : ∀ {c : Function}, Plantable f zero c → Succeeds (pure [] : Edit (List InstId)) c ∧
      ∀ phis c', (pure [] : Edit (List InstId)).run c = (.ok phis, c') → Plantable f zero c' := by
    intro c h
    refine ⟨.pure _ _, fun phis c' hrun => ?_⟩
    cases hrun
    exact h
  induction limit with
  | zero =>
    intro placed queued work c h
    unfold Edit.placePhis
    exact hnone h
  | succ limit ih =>
    intro placed queued work c h
    cases work with
    | nil =>
      unfold Edit.placePhis
      exact hnone h
    | cons x rest =>
      unfold Edit.placePhis
      dsimp only
      have hlisted : ∀ {y}, y ∈ (tree.frontierOf x).filter (fun y => !placed.contains y) → y ∈ f.layout :=
        fun hy => htree.listed x _ (List.mem_of_mem_filter hy)
      refine ⟨.bind (.mapM (P := fun _ => Plantable f zero) (fun y _ g hsuffix hg => hg.newPhi hs hphis (hlisted
        (hsuffix.subset List.mem_cons_self))) h) fun phis c₁ hmapM => .bind (ih ?_).1 fun _ _ _ => .pure _ _,
        fun phis c' hrun => ?_⟩
      · exact Preserves.mapM (P := Plantable f zero) (fun y hy g g' phi hg => (hg.newPhi hs hphis (hlisted hy)).2 phi g')
          h hmapM
      · obtain ⟨first, c₁, hmapM, hrun⟩ := bind_eq_ok hrun
        obtain ⟨more, c₂, hmore, hpure⟩ := bind_eq_ok hrun
        cases hpure
        refine (ih ?_).2 _ _ hmore
        exact Preserves.mapM (P := Plantable f zero) (fun y hy g g' phi hg => (hg.newPhi hs hphis (hlisted hy)).2 phi g')
          h hmapM

/-- Placing the phis of all slots succeeds. -/
theorem succeeds_placeAllPhis {tree : DominatorTree} {slots : List ValueId} (htree : FrontierBounds f tree) (hs : f.Sound)
    (hphis : f.PhisFirst) : Succeeds (placeAllPhis tree slots) f := by
  refine .bind (.mapM (P := fun _ g => g = f) (fun address _ g _ hg => ?_) rfl) fun stores f₁ hstores => ?_
  · subst hg
    obtain ⟨blocks, hblocks⟩ := exists_storeBlocks hs address
    exact ⟨succeeds_ask hblocks, fun _ g' hrun => (ask_eq_ok hrun).2.symm⟩
  have hask : ∀ address blocks (s s' : Function), (ask fun f => storeBlocks f address).run s = (.ok blocks, s') →
      storeBlocks s address = .ok blocks ∧ s = s' := fun _ _ _ _ hrun => ask_eq_ok hrun
  obtain ⟨rfl, -⟩ := mapM_of_questions hask hstores
  refine .bind (succeeds_internValue _) fun zero f₂ hzero => .get_bind ?_
  obtain ⟨hmore, hlt, -⟩ := internValue_spec rfl hzero
  refine .bind (.mapM (P := fun _ => Plantable f zero) (fun e rest g _ hg => ?_)
    ⟨⟨_, (Function.Reshaped.refl hs).moreValues hmore⟩, hlt⟩) fun _ _ _ => .pure _ _
  obtain ⟨hsucceeds, hkeeps⟩ := hg.placePhis htree hs hphis
  refine ⟨.bind hsucceeds fun _ _ _ => .pure _ _, fun phis g' hrun => ?_⟩
  obtain ⟨first, g₁, hfirst, hpure⟩ := bind_eq_ok hrun
  cases hpure
  exact hkeeps _ _ hfirst

/-! ## Taking out -/

/-- Instructions that nothing reads can be taken out. -/
theorem succeeds_forM_removeInst {key : α → InstId} {l : List α} (hs : c.Sound)
    (hsize : ∀ a ∈ l, key a < c.insts.size) (hunread : ∀ a ∈ l, Unread c (key a)) :
    Succeeds (l.forM fun a => removeInst (key a)) c := by
  refine .forM_of_keeps (P := fun g => g.Sound ∧ g.insts.size = c.insts.size ∧ (∀ i, g.result? i = c.result? i) ∧
    ∀ j, ∀ v ∈ g.operands j, v ∈ c.operands j) (fun a ha g hg => ?_) ⟨hs, rfl, fun _ => rfl, fun _ _ hv => hv⟩
  obtain ⟨hgs, hgsize, hresult, hoperands⟩ := hg
  refine ⟨succeeds_removeInst hgs.indexed (hgsize ▸ hsize a ha) (fun r hr => ?_) fun b hb => ?_, fun g' hrun => ?_⟩
  · refine ⟨(hgs.kind_of_result _ r hr).1, fun j hj => ?_⟩
    exact hunread a ha r (by rw [← hresult]; exact hr) j (hoperands j r hj)
  · exact lt_size_of_blockOf? hgs hb
  · obtain ⟨-, -, hsize', hbecomes, -⟩ := removeInst_spec hrun
    refine ⟨sound_removeInst hgs hrun, hsize'.trans hgsize, fun i => ?_, fun j v hv => hoperands j v ?_⟩
    · rw [← hresult, Function.result?, hbecomes.inst]
      exact Function.proj_update (by rfl) _
    · rw [Function.operands, hbecomes.inst, Function.update_apply] at hv
      split at hv
      · cases hv
      · exact hv

/-- After the walk nothing reads the address of a slot or the result of a load of one. -/
theorem clean_operands {plan : SlotPlan} {f₁ : Function} {new : BlockId → List InstId} {entries : List (InstId × Nat)}
    {done : List InstId} {fill : BlockId → Nat → ValueId} {blocks : List BlockId} (hp : plan.Prepared f f₁ new entries)
    (h : plan.Walking f f₁ c new done fill blocks) (hblocks : ∀ b, b ∈ blocks ↔ f.Reach b) (hc : f.Connected)
    (ht : f.Tidy) (ht' : c.Tidy) {j : InstId} {v : ValueId} (hv : v ∈ c.operands j) : plan.Clean f v := by
  obtain ⟨b, hb⟩ := Option.ne_none_iff_exists'.1 (ht'.tended.placed_of_mem hv)
  have hin := (ht'.sound.placed b j).2 hb
  have hlisted := mem_layout_of_mem_insts ht' hin
  rw [h.state.reshaped.layout] at hlisted
  have hpassed : ∀ {d i}, d ∈ f.layout → i ∈ f.instsOf d → i ∈ done := fun hd hi =>
    (h.visited.passed _).2 ⟨_, (hblocks _).2 (hc _ hd), hi⟩
  -- What is still in the block is an added phi or accesses no slot.
  have hcase : j ∈ new b ∨ j ∈ f.instsOf b ∧
      (done.contains j && (plan.accessOf? f j).isSome) = false := by
    rw [h.state.reshaped.insts] at hin
    rcases List.mem_append.1 hin with hin | hin
    · rcases List.mem_append.1 hin with hin | hin
      · refine .inr ⟨(List.takeWhile_sublist _).subset hin, ?_⟩
        rw [SlotPlan.accessOf?_phi hin]
        simp
      · exact .inl hin
    · obtain ⟨hin, hkept⟩ := List.mem_filter.1 hin
      rw [Bool.not_eq_true'] at hkept
      exact .inr ⟨(List.dropWhile_sublist _).subset hin, hkept⟩
  rcases hcase with hnew | ⟨hold, hkept⟩
  · obtain ⟨k, r, hphi⟩ := hp.listed b j hnew
    rw [h.state.filled b k j r hphi] at hv
    obtain ⟨p, -, rfl⟩ := List.mem_map.1 hv
    exact h.state.clean p k (hp.labels _ (hp.phi b k j r hphi).2.1)
  · rw [h.state.reshaped.operands j (hp.sound.lt_insts_size hold) hkept] at hv
    obtain ⟨w, hw, rfl⟩ := List.mem_map.1 hv
    refine h.state.carried.clean_stand (fun haddress => ?_) fun i hloads => ?_
    · obtain ⟨slot, hslot⟩ := List.mem_iff_getElem?.1 hw
      obtain ⟨rfl, hkind⟩ := hp.plain.only b j slot w (hc b hlisted) hold hslot haddress
      obtain ⟨k, hk⟩ := Option.isSome_iff_exists.1 (List.isSome_idxOf?.2 haddress)
      have haccess : plan.accessOf? f j = some k := SlotPlan.accessOf?_eq_some_iff.2 ⟨hkind, w, hslot, hk⟩
      rw [List.contains_iff_mem.2 (hpassed hlisted hold), haccess] at hkept
      cases hkept
    · obtain ⟨k, haccess⟩ := hloads.2.1
      obtain ⟨-, base, hbase, -⟩ := SlotPlan.accessOf?_eq_some_iff.1 haccess
      obtain ⟨d, hd⟩ := Option.ne_none_iff_exists'.1 (ht.tended.placed_of_mem (List.mem_of_getElem? hbase))
      have hin := (ht.sound.placed d i).2 hd
      exact hpassed (mem_layout_of_mem_insts ht hin) hin

/-! ## All steps -/

/-- Promotion succeeds. -/
theorem succeeds_promote (hwf : f.WellFormed) (ht : f.Tidy) : Succeeds promote f := by
  obtain ⟨hsimplify, hexchangeable⟩ := succeeds_simplify hwf ht
  refine .bind hsimplify fun steps g hrun => ?_
  obtain ⟨⟨hs, hr, hstrict, -⟩, hgt, hc⟩ := hexchangeable steps g hrun
  obtain ⟨slots, hslots⟩ := exists_promotableSlots hs
  refine succeeds_ask_bind hslots ?_
  dsimp only
  split
  · exact .pure _ _
  obtain ⟨tree, htree, -⟩ := DominatorTree.ofCfg_total (explorable_cfg hs (hr.wired hs)) (consistent_cfg (hr.wired hs))
  refine succeeds_ask_bind htree (.bind (succeeds_placeAllPhis (frontierBounds (hr.wired hs) htree) hs hr.phis_first)
    fun entries f₁ hplace => .bind (succeeds_internValue _) fun zeroId f₂ hzero => ?_)
  obtain ⟨new, first, hlaid, hfirst, hfilled, -, -⟩ := laid_of_placeAllPhis hs hr hslots htree hplace hzero
  have ht₁ := (stable_tidy.placeAllPhis tree _ ⟨hgt, landed_of_ofCfg htree⟩ hplace).1
  have ht₂ := stable_tidy.constValue 0 ht₁ hzero
  obtain ⟨e, rest, hlayout, -⟩ := hr.entry
  have he : g.layout.head? = some e := by rw [hlayout]; rfl
  have hentry : f₂.entry = .ok e := by
    unfold Function.entry
    rw [hlaid.reshaped.layout, he]
    rfl
  refine succeeds_ask_bind hentry (.get_bind (.bind (SlotPlan.succeeds_renameFrom _ _ (hlaid.prepared hstrict)
    (hlaid.walking hfirst hfilled) (pending_firstPlan he) visited_replicate ?_ ht₂ fun d hd v hv => ?_)
    fun _ c₃ hrename => ?_))
  · rw [Array.size_replicate, hlaid.reshaped.blocks_size]
  · rw [List.mem_singleton.1 hd] at hv
    obtain ⟨_, -, rfl⟩ := List.mem_map.1 hv
    exact hlaid.zero.1
  obtain ⟨plan, new', done, fill, blocks, rfl, hp, hwalking, hblocks, -, hsite, -⟩ :=
    Walks.walking ⟨hslots, htree, hplace, hzero, by rw [hlaid.reshaped.layout]; exact he, hrename⟩ hs hr hstrict
  have ht₃ := stable_tidy.renameFrom _ _ _ _ ht₂ hrename
  have hold := reserved_old hp.plain
  refine .bind (@succeeds_forM_removeInst _ _ Prod.fst _ ht₃.sound (fun d hd => ?_) fun d hd r hr' => ?_)
    fun _ c₄ hremove => ?_
  · exact Nat.lt_of_lt_of_le (hold d hd).1 hwalking.state.reshaped.insts_size
  · rw [hwalking.state.reshaped.result _ (hold d hd).1, (hp.plain.reserve d hd).2] at hr'
    intro j hj
    refine (clean_operands hp hwalking hblocks hc hgt ht₃ hj).1 ?_
    rw [← Option.some.inj hr']
    exact List.mem_map_of_mem hd
  obtain ⟨h₄, halike, -⟩ := removeOld_spec hold hwalking.state.reshaped hremove
  have hresults : ∀ i ∈ entries.map Prod.fst, ∃ r, c₄.result? i = some r := by
    intro i hi
    obtain ⟨d, hd, rfl⟩ := List.mem_map.1 hi
    obtain ⟨b, hb⟩ := hsite d hd
    obtain ⟨k, r, hphi⟩ := hp.listed b d.1 hb
    refine ⟨r, ?_⟩
    rw [halike.result, hwalking.state.alike.result]
    exact (hp.phi b k d.1 r hphi).2.2
  obtain ⟨gone, f₅, hdead, -⟩ := exists_removeDeadPhis h₄.sound.indexed h₄.sound.matched h₄.sound.placed hp.nodup hresults
  exact .bind ⟨_, _, hdead⟩ fun _ _ _ => .pure _ _

end Edit

end SsaCompiler
