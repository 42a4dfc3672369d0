import SsaCompiler.Proofs.Ir.Reshaping

/-!
# Where phis are placed

A slot gets a phi in every block of the frontiers of the blocks that store to it, and of the blocks that have got a
phi. `Grown` says what adding phis does to a function, and `placeAllPhis_spec` that the blocks with a phi for a slot
are closed under frontiers: the worklist comes to every block that was ever queued, because no block is queued twice
and the limit is the number of blocks.
-/

set_option autoImplicit false

namespace SsaCompiler

/-- A block has an added phi for a slot; `entries` are the added phis with their slots. -/
def SlotPhi (new : BlockId → List InstId) (entries : List (InstId × Nat)) (b : BlockId) (k : Nat) : Prop :=
  ∃ phi, (phi, k) ∈ entries ∧ phi ∈ new b

/-- The least set with the frontiers of some blocks that is closed under frontiers. -/
inductive IteratedFrontier (frontier : BlockId → BlockId → Prop) (start : BlockId → Prop) : BlockId → Prop
  | first {x y : BlockId} : start x → frontier x y → IteratedFrontier frontier start y
  | next {x y : BlockId} : IteratedFrontier frontier start x → frontier x y → IteratedFrontier frontier start y

namespace IteratedFrontier

variable {frontier frontier' : BlockId → BlockId → Prop} {start start' : BlockId → Prop}

/-- A set with the frontiers of the blocks to start from that is closed under frontiers has the iterated frontier. -/
theorem least {S : BlockId → Prop} (hfirst : ∀ x, start x → ∀ y, frontier x y → S y)
    (hnext : ∀ x, S x → ∀ y, frontier x y → S y) {y : BlockId} (h : IteratedFrontier frontier start y) : S y := by
  induction h with
  | first hx hy => exact hfirst _ hx _ hy
  | next _ hy ih => exact hnext _ ih _ hy

/-- Every block of an iterated frontier is in a frontier. -/
theorem exists_frontier {y : BlockId} (h : IteratedFrontier frontier start y) : ∃ x, frontier x y := by
  cases h with
  | first _ hy => exact ⟨_, hy⟩
  | next _ hy => exact ⟨_, hy⟩

theorem congr (hfrontier : ∀ x y, frontier x y ↔ frontier' x y) (hstart : ∀ x, start x ↔ start' x) {y : BlockId} :
    IteratedFrontier frontier start y ↔ IteratedFrontier frontier' start' y := by
  obtain rfl : frontier = frontier' := funext fun x => funext fun y => propext (hfrontier x y)
  obtain rfl : start = start' := funext fun x => propext (hstart x)
  exact Iff.rfl

end IteratedFrontier

/-- A function has got phis with slots, which read one value everywhere; there is one for each block and slot at
most. -/
structure Grown (f c c' : Function) (zero : ValueId) (new new' : BlockId → List InstId)
    (entries : List (InstId × Nat)) : Prop where
  reshaped : f.Reshaped c' new' (fun _ => false) id
  insts_size : c.insts.size ≤ c'.insts.size
  values_size : c.values.size ≤ c'.values.size
  operands : ∀ i, i < c.insts.size → c'.operands i = c.operands i
  result : ∀ i, i < c.insts.size → c'.result? i = c.result? i
  kinds : ∀ v, v < c.values.size → (c'.value v).kind = (c.value v).kind
  keys : ∀ e ∈ entries, c.insts.size ≤ e.1 ∧ e.1 < c'.insts.size
  cover : ∀ i, c.insts.size ≤ i → i < c'.insts.size → i ∈ entries.map Prod.fst
  nodup : (entries.map Prod.fst).Nodup
  subset : ∀ b phi, phi ∈ new b → phi ∈ new' b
  mem : ∀ b phi, phi ∈ new' b → phi ∈ new b ∨ phi ∈ entries.map Prod.fst
  site : ∀ e ∈ entries, ∃ b ∈ f.layout, e.1 ∈ new' b
  filled : ∀ e ∈ entries, ∀ b, e.1 ∈ new' b →
    c'.operands e.1 = List.replicate (f.preds b).length zero ∧ (c'.result? e.1).isSome = true
  one : ∀ b k phi phi', (phi, k) ∈ entries → (phi', k) ∈ entries → phi ∈ new' b → phi' ∈ new' b → phi = phi'

namespace Grown

variable {f c c' c'' : Function} {zero : ValueId} {new new' new'' : BlockId → List InstId}
  {entries entries' : List (InstId × Nat)}

theorem refl (h : f.Reshaped c new (fun _ => false) id) (zero : ValueId) : Grown f c c zero new new [] where
  reshaped := h
  insts_size := Nat.le_refl _
  values_size := Nat.le_refl _
  operands _ _ := rfl
  result _ _ := rfl
  kinds _ _ := rfl
  keys e he := absurd he List.not_mem_nil
  cover _ hle hlt := absurd hlt (Nat.not_lt.2 hle)
  nodup := List.nodup_nil
  subset _ _ h := h
  mem _ _ h := .inl h
  site e he := absurd he List.not_mem_nil
  filled e he := absurd he List.not_mem_nil
  one _ _ _ _ h := absurd h List.not_mem_nil

section

variable (h : Grown f c c' zero new new' entries) (h' : Grown f c' c'' zero new' new'' entries')

include h h'

/-- An added phi stays where it is when others are added. -/
theorem mem_of_mem {b : BlockId} {e : InstId × Nat} (he : e ∈ entries) (hb : e.1 ∈ new'' b) : e.1 ∈ new' b := by
  refine (h'.mem b e.1 hb).resolve_right fun hin => ?_
  obtain ⟨d, hd, hde⟩ := List.mem_map.1 hin
  exact Nat.lt_irrefl _ (Nat.lt_of_lt_of_le (h.keys e he).2 (hde ▸ (h'.keys d hd).1))

/-- The blocks that have got phis in one of two turns. -/
theorem slotPhi_append {b : BlockId} {k : Nat} :
    SlotPhi new'' (entries ++ entries') b k ↔ SlotPhi new' entries b k ∨ SlotPhi new'' entries' b k := by
  constructor
  · rintro ⟨phi, hin, hb⟩
    rcases List.mem_append.1 hin with hin | hin
    · exact .inl ⟨phi, hin, h.mem_of_mem h' hin hb⟩
    · exact .inr ⟨phi, hin, hb⟩
  · rintro (⟨phi, hin, hb⟩ | ⟨phi, hin, hb⟩)
    · exact ⟨phi, List.mem_append_left _ hin, h'.subset b phi hb⟩
    · exact ⟨phi, List.mem_append_right _ hin, hb⟩

theorem trans (hapart : ∀ b k, SlotPhi new' entries b k → ¬ SlotPhi new'' entries' b k) :
    Grown f c c'' zero new new'' (entries ++ entries') where
  reshaped := h'.reshaped
  insts_size := h.insts_size.trans h'.insts_size
  values_size := h.values_size.trans h'.values_size
  operands i hi := (h'.operands i (Nat.lt_of_lt_of_le hi h.insts_size)).trans (h.operands i hi)
  result i hi := (h'.result i (Nat.lt_of_lt_of_le hi h.insts_size)).trans (h.result i hi)
  kinds v hv := (h'.kinds v (Nat.lt_of_lt_of_le hv h.values_size)).trans (h.kinds v hv)
  keys e he := by
    rcases List.mem_append.1 he with he | he
    · exact ⟨(h.keys e he).1, Nat.lt_of_lt_of_le (h.keys e he).2 h'.insts_size⟩
    · exact ⟨h.insts_size.trans (h'.keys e he).1, (h'.keys e he).2⟩
  cover i hle hlt := by
    rw [List.map_append, List.mem_append]
    rcases Nat.lt_or_ge i c'.insts.size with hi | hi
    · exact .inl (h.cover i hle hi)
    · exact .inr (h'.cover i hi hlt)
  nodup := by
    rw [List.map_append, List.nodup_append]
    refine ⟨h.nodup, h'.nodup, fun a ha b hb => ?_⟩
    obtain ⟨d, hd, rfl⟩ := List.mem_map.1 ha
    obtain ⟨e, he, rfl⟩ := List.mem_map.1 hb
    exact Nat.ne_of_lt (Nat.lt_of_lt_of_le (h.keys d hd).2 (h'.keys e he).1)
  subset b phi hb := h'.subset b phi (h.subset b phi hb)
  mem b phi hb := by
    rw [List.map_append, List.mem_append, ← or_assoc]
    exact (h'.mem b phi hb).imp_left fun hin => h.mem b phi hin
  site e he := by
    rcases List.mem_append.1 he with he | he
    · obtain ⟨b, hlisted, hb⟩ := h.site e he
      exact ⟨b, hlisted, h'.subset b e.1 hb⟩
    · exact h'.site e he
  filled e he b hb := by
    rcases List.mem_append.1 he with he | he
    · rw [h'.operands e.1 (h.keys e he).2, h'.result e.1 (h.keys e he).2]
      exact h.filled e he b (h.mem_of_mem h' he hb)
    · exact h'.filled e he b hb
  one b k phi phi' hphi hphi' hb hb' := by
    rcases List.mem_append.1 hphi with hphi | hphi
    · rcases List.mem_append.1 hphi' with hphi' | hphi'
      · exact h.one b k phi phi' hphi hphi' (h.mem_of_mem h' hphi hb) (h.mem_of_mem h' hphi' hb')
      · exact absurd ⟨phi', hphi', hb'⟩ (hapart b k ⟨phi, hphi, h.mem_of_mem h' hphi hb⟩)
    · rcases List.mem_append.1 hphi' with hphi' | hphi'
      · exact absurd ⟨phi, hphi, hb⟩ (hapart b k ⟨phi', hphi', h.mem_of_mem h' hphi' hb'⟩)
      · exact h'.one b k phi phi' hphi hphi' hb hb'

end

end Grown

namespace Edit

open Edits

variable {f c c' : Function} {zero : ValueId} {new : BlockId → List InstId}

/-- Adding one phi. -/
theorem grown_insertPhi (h : f.Reshaped c new (fun _ => false) id) (hs : f.Sound) (hphis : f.PhisFirst) {y : BlockId}
    (hy : y ∈ f.layout) {phi : InstId} (k : Nat) (hrun : (do
      let phi ← createInst .phi (List.replicate ((← get).preds y).length zero) true
      insertPhi y phi
      return phi : Edit InstId).run c = (.ok phi, c')) :
    ∃ new', Grown f c c' zero new new' [(phi, k)] ∧ ∀ b, SlotPhi new' [(phi, k)] b k ↔ b = y := by
  have hrun := of_get_bind hrun
  obtain ⟨i, c₁, hcreate, hrun⟩ := bind_eq_ok hrun
  obtain ⟨⟨⟩, c₂, hinsert, hrun⟩ := bind_eq_ok hrun
  cases hrun
  obtain ⟨hi, hreshaped, hsize, hvalues, hresult, hoperands, hother, hkinds⟩ := h.insertPhi hs hphis hy hcreate hinsert
  -- The number of the phi is in no list yet.
  have hnot : ∀ b, phi ∉ new b := by
    intro b hin
    have hinsts : phi ∈ c.instsOf b := by
      rw [h.insts]
      exact List.mem_append_left _ (List.mem_append_right _ hin)
    exact absurd (h.sound.lt_insts_size hinsts) (Nat.not_lt.2 (Nat.le_of_eq hi.symm))
  have hnew : ∀ b j, j ∈ Function.update new y (new y ++ [phi]) b ↔ j ∈ new b ∨ (b = y ∧ j = phi) := by
    intro b j
    rw [Function.update_apply]
    split
    · rename_i hb
      subst hb
      simp
    · rename_i hb
      simp [hb]
  have hold : ∀ i, i < c.insts.size → i ≠ phi := fun i hlt => hi ▸ Nat.ne_of_lt hlt
  have hsite : ∀ b, phi ∈ Function.update new y (new y ++ [phi]) b ↔ b = y := fun b =>
    (hnew b phi).trans ⟨fun hb => (hb.resolve_left (hnot b)).1, fun hb => .inr ⟨hb, rfl⟩⟩
  refine ⟨_, ⟨hreshaped, by omega, by omega, fun i hlt => (hother i (hold i hlt)).2, fun i hlt => (hother i (hold i hlt)).1,
    hkinds, ?_, fun i hle hlt => ?_, by simp, fun b j hj => (hnew b j).2 (.inl hj), ?_, ?_, ?_, ?_⟩, fun b => ?_⟩
  · rintro e he
    obtain rfl := List.mem_singleton.1 he
    exact ⟨Nat.le_of_eq hi.symm, by rw [hsize, hi]; exact Nat.lt_succ_self _⟩
  · rw [hsize] at hlt
    obtain rfl : i = phi := (Nat.le_antisymm (Nat.le_of_lt_succ hlt) hle).trans hi.symm
    exact List.mem_cons_self
  · exact fun b j hj => ((hnew b j).1 hj).imp_right fun hb => by simp [hb.2]
  · rintro e he
    obtain rfl := List.mem_singleton.1 he
    exact ⟨y, hy, (hsite y).2 rfl⟩
  · rintro e he b hb
    obtain rfl := List.mem_singleton.1 he
    obtain rfl := (hsite b).1 hb
    exact ⟨by rw [hoperands, h.preds], by rw [hresult]; rfl⟩
  · intro b k' j j' hj hj' _ _
    have hj := List.mem_singleton.1 hj
    have hj' := List.mem_singleton.1 hj'
    exact (Prod.mk.inj hj).1.trans (Prod.mk.inj hj').1.symm
  · unfold SlotPhi
    rw [← hsite b]
    simp

/-- Adding phis for one slot to a list of blocks. -/
theorem grown_mapM (hs : f.Sound) (hphis : f.PhisFirst) (k : Nat) {targets : List BlockId} (hnodup : targets.Nodup)
    (hlisted : ∀ y ∈ targets, y ∈ f.layout) : ∀ {c c' : Function} {new : BlockId → List InstId} {phis : List InstId},
      f.Reshaped c new (fun _ => false) id →
      (targets.mapM fun y => (do
        let phi ← createInst .phi (List.replicate ((← get).preds y).length zero) true
        insertPhi y phi
        return phi : Edit InstId)).run c = (.ok phis, c') →
      ∃ new', Grown f c c' zero new new' (phis.map fun phi => (phi, k)) ∧
        ∀ b, SlotPhi new' (phis.map fun phi => (phi, k)) b k ↔ b ∈ targets := by
  induction targets with
  | nil =>
    intro c c' new phis h hrun
    cases hrun
    refine ⟨new, .refl h zero, fun b => ⟨?_, fun hb => absurd hb List.not_mem_nil⟩⟩
    rintro ⟨phi, hphi, -⟩
    cases hphi
  | cons y targets ih =>
    intro c c' new phis h hrun
    rw [List.mapM_cons] at hrun
    obtain ⟨phi, c₁, hfirst, hrun⟩ := bind_eq_ok hrun
    obtain ⟨more, c₂, hrest, hrun⟩ := bind_eq_ok hrun
    cases hrun
    obtain ⟨hy, hnodup⟩ := List.nodup_cons.1 hnodup
    obtain ⟨new₁, hgrown, hsite⟩ := grown_insertPhi h hs hphis (hlisted y List.mem_cons_self) k hfirst
    obtain ⟨new₂, hgrown', hsite'⟩ := ih hnodup (fun z hz => hlisted z (List.mem_cons_of_mem _ hz)) hgrown.reshaped hrest
    have hapart : ∀ b k', SlotPhi new₁ [(phi, k)] b k' → ¬ SlotPhi new₂ (more.map fun phi => (phi, k)) b k' := by
      rintro b k' ⟨phi', hphi', hb⟩ hmore
      obtain ⟨rfl, rfl⟩ := Prod.mk.inj (List.mem_singleton.1 hphi')
      have hby := (hsite b).1 ⟨phi', List.mem_singleton.2 rfl, hb⟩
      exact hy (hby ▸ (hsite' b).1 hmore)
    refine ⟨new₂, hgrown.trans hgrown' hapart, fun b => ?_⟩
    rw [List.map_cons, ← List.singleton_append, hgrown.slotPhi_append hgrown', hsite, hsite', List.mem_cons]

/-- How many blocks are not in a set. -/
def outside (n : Nat) (s : NatSet) : Nat := ((List.range n).filter fun b => !s.contains b).length

/-- What is put into a set is no longer outside. -/
theorem length_filter_foldl_insert {all l : List Nat} {s : NatSet} (hall : all.Nodup) (hnodup : l.Nodup)
    (hl : ∀ a ∈ l, a ∈ all ∧ s.contains a = false) :
    l.length + (all.filter fun a => !(l.foldl .insert s).contains a).length ≤
      (all.filter fun a => !s.contains a).length := by
  have hboth : (l ++ all.filter fun a => !(l.foldl .insert s).contains a).Nodup := by
    refine List.nodup_append.2 ⟨hnodup, hall.filter _, ?_⟩
    rintro a ha b hb rfl
    have hnot := (List.mem_filter.1 hb).2
    rw [(NatSet.contains_foldl_insert l s a).2 (.inr ha)] at hnot
    cases hnot
  have hsub : ∀ a ∈ l ++ all.filter fun a => !(l.foldl .insert s).contains a, a ∈ all.filter fun a => !s.contains a := by
    intro a ha
    rcases List.mem_append.1 ha with ha | ha
    · rw [List.mem_filter, (hl a ha).2]
      exact ⟨(hl a ha).1, rfl⟩
    · obtain ⟨hin, hnot⟩ := List.mem_filter.1 ha
      refine List.mem_filter.2 ⟨hin, ?_⟩
      by_contra hin
      have hin' : s.contains a = true := by simpa using hin
      rw [(NatSet.contains_foldl_insert l s a).2 (.inl hin')] at hnot
      cases hnot
  have hle := (List.Nodup.subperm hboth hsub).length_le
  rw [List.length_append] at hle
  exact hle

/-- Blocks that are put into a set are no longer outside. -/
theorem outside_foldl_insert {n : Nat} {s : NatSet} {l : List BlockId} (hnodup : l.Nodup)
    (hl : ∀ b ∈ l, b < n ∧ s.contains b = false) : l.length + outside n (l.foldl .insert s) ≤ outside n s :=
  length_filter_foldl_insert List.nodup_range hnodup fun b hb => ⟨List.mem_range.2 (hl b hb).1, (hl b hb).2⟩

/-- What the tree of a function says of frontiers. -/
structure FrontierBounds (f : Function) (tree : DominatorTree) : Prop where
  nodup : ∀ x, (tree.frontierOf x).Nodup
  listed : ∀ x, ∀ y ∈ tree.frontierOf x, y ∈ f.layout

/-- The phis of one slot. `work` are the queued blocks whose frontiers may still lack phis. -/
theorem placePhis_spec {tree : DominatorTree} (htree : FrontierBounds f tree) (hs : f.Sound) (hphis : f.PhisFirst) (k : Nat)
    {limit : Nat} : ∀ {placed queued : NatSet} {work : List BlockId} {c c' : Function} {new : BlockId → List InstId}
      {phis : List InstId}, f.Reshaped c new (fun _ => false) id →
      work.length + outside f.blocks.size queued ≤ limit →
      (∀ y, placed.contains y = true → queued.contains y = true) →
      (∀ y, queued.contains y = true → y ∈ work ∨ ∀ z ∈ tree.frontierOf y, placed.contains z = true) →
      (placePhis tree zero limit placed queued work).run c = (.ok phis, c') →
      ∃ new', Grown f c c' zero new new' (phis.map fun phi => (phi, k)) ∧
        (∀ y, SlotPhi new' (phis.map fun phi => (phi, k)) y k →
          placed.contains y = false ∧ IteratedFrontier (fun x y => y ∈ tree.frontierOf x) (· ∈ work) y) ∧
        ∀ y, queued.contains y = true ∨ SlotPhi new' (phis.map fun phi => (phi, k)) y k →
          ∀ z ∈ tree.frontierOf y, placed.contains z = true ∨ SlotPhi new' (phis.map fun phi => (phi, k)) z k := by
  have hnone : ∀ {new : BlockId → List InstId} {y : BlockId},
      ¬ SlotPhi new (([] : List InstId).map fun phi => (phi, k)) y k := by
    rintro new y ⟨phi, hphi, -⟩
    cases hphi
  -- Where no work is left, all queued blocks are done.
  have hend : ∀ {placed queued : NatSet} {work : List BlockId} {c : Function} {new : BlockId → List InstId},
      f.Reshaped c new (fun _ => false) id →
      (∀ y, queued.contains y = true → y ∈ ([] : List BlockId) ∨ ∀ z ∈ tree.frontierOf y, placed.contains z = true) →
      ∃ new', Grown f c c zero new new' (([] : List InstId).map fun phi => (phi, k)) ∧
        (∀ y, SlotPhi new' (([] : List InstId).map fun phi => (phi, k)) y k →
          placed.contains y = false ∧ IteratedFrontier (fun x y => y ∈ tree.frontierOf x) (· ∈ work) y) ∧
        ∀ y, queued.contains y = true ∨ SlotPhi new' (([] : List InstId).map fun phi => (phi, k)) y k →
          ∀ z ∈ tree.frontierOf y,
            placed.contains z = true ∨ SlotPhi new' (([] : List InstId).map fun phi => (phi, k)) z k := by
    intro placed queued work c new h hqueued
    refine ⟨new, .refl h zero, fun y hy => absurd hy hnone, fun y hy z hz => .inl ?_⟩
    exact (hqueued y (hy.resolve_right hnone)).resolve_left List.not_mem_nil z hz
  induction limit with
  | zero =>
    intro placed queued work c c' new phis h hlimit _ hqueued hrun
    obtain rfl : work = [] := List.length_eq_zero_iff.1 (by omega)
    cases hrun
    exact hend h hqueued
  | succ limit ih =>
    intro placed queued work c c' new phis h hlimit hplaced hqueued hrun
    cases work with
    | nil =>
      cases hrun
      exact hend h hqueued
    | cons x work =>
      rw [placePhis] at hrun
      dsimp only at hrun
      generalize htargets : ((tree.frontierOf x).filter fun y => !placed.contains y) = targets at hrun
      generalize hfresh : (targets.filter fun y => !queued.contains y) = fresh at hrun
      obtain ⟨first, c₁, hfirst, hrun⟩ := bind_eq_ok hrun
      obtain ⟨more, c₂, hmore, hrun⟩ := bind_eq_ok hrun
      cases hrun
      have hmem : ∀ y, y ∈ targets ↔ y ∈ tree.frontierOf x ∧ placed.contains y = false := by
        intro y
        rw [← htargets, List.mem_filter, Bool.not_eq_true']
      have hnodup : targets.Nodup := htargets ▸ (htree.nodup x).filter _
      have hmemfresh : ∀ y, y ∈ fresh ↔ y ∈ targets ∧ queued.contains y = false := by
        intro y
        rw [← hfresh, List.mem_filter, Bool.not_eq_true']
      have hlisted : ∀ y ∈ targets, y ∈ f.layout := fun y hy => htree.listed x y ((hmem y).1 hy).1
      obtain ⟨new₁, hgrown, hsite⟩ := grown_mapM hs hphis k hnodup hlisted h hfirst
      have hcount := outside_foldl_insert (n := f.blocks.size) (s := queued) (hfresh ▸ hnodup.filter _) fun b hb =>
        ⟨((hs.mem_layout b).1 (hlisted b ((hmemfresh b).1 hb).1)).1, ((hmemfresh b).1 hb).2⟩
      have hlimit' : (fresh.reverse ++ work).length + outside f.blocks.size (fresh.foldl .insert queued) ≤ limit := by
        rw [List.length_append, List.length_reverse]
        rw [List.length_cons] at hlimit
        omega
      have hplaced' : ∀ y, (targets.foldl .insert placed).contains y = true →
          (fresh.foldl .insert queued).contains y = true := by
        intro y hy
        rw [NatSet.contains_foldl_insert] at hy ⊢
        cases hq : queued.contains y with
        | true => exact .inl rfl
        | false =>
          refine .inr ((hmemfresh y).2 ⟨hy.resolve_left fun hin => ?_, hq⟩)
          rw [hplaced y hin] at hq
          cases hq
      have hqueued' : ∀ y, (fresh.foldl .insert queued).contains y = true → y ∈ fresh.reverse ++ work ∨
          ∀ z ∈ tree.frontierOf y, (targets.foldl .insert placed).contains z = true := by
        intro y hy
        rw [NatSet.contains_foldl_insert] at hy
        have hput : ∀ {z}, placed.contains z = true ∨ z ∈ targets →
            (targets.foldl .insert placed).contains z = true := fun hz =>
          (NatSet.contains_foldl_insert targets placed _).2 hz
        rcases hy with hy | hy
        · rcases hqueued y hy with hin | hdone
          · rcases List.mem_cons.1 hin with rfl | hin
            · refine .inr fun z hz => hput ?_
              cases hp : placed.contains z with
              | true => exact .inl rfl
              | false => exact .inr ((hmem z).2 ⟨hz, hp⟩)
            · exact .inl (List.mem_append_right _ hin)
          · exact .inr fun z hz => hput (.inl (hdone z hz))
        · exact .inl (List.mem_append_left _ (List.mem_reverse.2 hy))
      obtain ⟨new₂, hgrown', honly, hclosed⟩ := ih hgrown.reshaped hlimit' hplaced' hqueued' hmore
      have hapart : ∀ b k', SlotPhi new₁ (first.map fun phi => (phi, k)) b k' →
          ¬ SlotPhi new₂ (more.map fun phi => (phi, k)) b k' := by
        rintro b k' ⟨phi, hphi, hb⟩ hsecond
        obtain ⟨phi', _, hpair⟩ := List.mem_map.1 hphi
        obtain rfl : k = k' := (Prod.mk.inj hpair).2
        have hnot := (honly b hsecond).1
        rw [(NatSet.contains_foldl_insert targets placed b).2 (.inr ((hsite b).1 ⟨_, hphi, hb⟩))] at hnot
        cases hnot
      refine ⟨new₂, by rw [List.map_append]; exact hgrown.trans hgrown' hapart, fun y hy => ?_, fun y hy z hz => ?_⟩
      · rw [List.map_append, hgrown.slotPhi_append hgrown', hsite] at hy
        rcases hy with hy | hy
        · exact ⟨((hmem y).1 hy).2, .first List.mem_cons_self ((hmem y).1 hy).1⟩
        · obtain ⟨hnot, hfrontier⟩ := honly y hy
          refine ⟨?_, hfrontier.least (fun z hz w hw => ?_) fun z hz w hw => .next hz hw⟩
          · rw [← Bool.not_eq_true] at hnot ⊢
            exact fun hin => hnot ((NatSet.contains_foldl_insert targets placed y).2 (.inl hin))
          · -- What was queued now is itself on the frontier of the block at work.
            rcases List.mem_append.1 hz with hz | hz
            · have htarget := ((hmemfresh z).1 (List.mem_reverse.1 hz)).1
              exact .next (.first List.mem_cons_self ((hmem z).1 htarget).1) hw
            · exact .first (List.mem_cons_of_mem _ hz) hw
      · rw [List.map_append, hgrown.slotPhi_append hgrown', hsite] at hy ⊢
        have hy' : (fresh.foldl .insert queued).contains y = true ∨
            SlotPhi new₂ (more.map fun phi => (phi, k)) y k := by
          rw [NatSet.contains_foldl_insert]
          rcases hy with hy | hy | hy
          · exact .inl (.inl hy)
          · cases hq : queued.contains y with
            | true => exact .inl (.inl rfl)
            | false => exact .inl (.inr ((hmemfresh y).2 ⟨hy, hq⟩))
          · exact .inr hy
        rcases hclosed y hy' z hz with hz | hz
        · rw [NatSet.contains_foldl_insert] at hz
          exact hz.imp_right .inl
        · exact .inr (.inr hz)

/-- A block has a store to a slot. -/
def StoresTo (f : Function) (b : BlockId) (address : ValueId) : Prop :=
  b ∈ f.layout ∧ ∃ i ∈ f.instsOf b, f.kind i = .store ∧ (f.operands i)[0]? = some address

/-- Collecting elements once each, but for those to be skipped. -/
theorem foldl_fresh (skip : Nat → Bool) (l : List Nat) : ∀ {seen : List Nat}, seen.Nodup →
    (l.foldl (fun seen a => if skip a || seen.contains a then seen else seen ++ [a]) seen).Nodup ∧
      ∀ b, b ∈ l.foldl (fun seen a => if skip a || seen.contains a then seen else seen ++ [a]) seen ↔
        b ∈ seen ∨ b ∈ l ∧ skip b = false := by
  induction l with
  | nil => exact fun hseen => ⟨hseen, fun b => by simp⟩
  | cons a l ih =>
    intro seen hseen
    rw [List.foldl_cons]
    by_cases ha : (skip a || seen.contains a) = true
    · rw [if_pos ha]
      refine ⟨(ih hseen).1, fun b => ((ih hseen).2 b).trans ?_⟩
      rw [Bool.or_eq_true, List.contains_iff_mem] at ha
      refine or_congr_right' fun hb => ?_
      rw [List.mem_cons, or_and_right]
      refine (or_iff_right ?_).symm
      rintro ⟨rfl, hskip⟩
      rw [hskip] at ha
      exact hb (ha.resolve_left Bool.false_ne_true)
    · rw [if_neg ha]
      rw [Bool.or_eq_true, List.contains_iff_mem, not_or, Bool.not_eq_true] at ha
      have hboth : (seen ++ [a]).Nodup := by
        rw [List.nodup_append]
        refine ⟨hseen, List.nodup_singleton a, fun b hb c hc => ?_⟩
        rintro rfl
        exact ha.2 (List.mem_singleton.1 hc ▸ hb)
      refine ⟨(ih hboth).1, fun b => ((ih hboth).2 b).trans ?_⟩
      rw [List.mem_append, List.mem_singleton, List.mem_cons, or_and_right, or_assoc]
      refine or_congr_right (or_congr_left ?_)
      exact ⟨fun hb => ⟨hb, hb ▸ ha.1⟩, fun hb => hb.1⟩

/-- The blocks with stores are listed once each. -/
theorem storeBlocks_spec (hs : f.Sound) {address : ValueId} {blocks : List BlockId}
    (h : storeBlocks f address = .ok blocks) : blocks.Nodup ∧ ∀ b, b ∈ blocks ↔ StoresTo f b address := by
  unfold storeBlocks at h
  obtain ⟨found, hfound, hpure⟩ := Outcome.bind_eq_ok.1 h
  cases hpure
  obtain ⟨hnodup, hall⟩ := foldl_fresh (fun _ => false) (found.filterMap id) List.nodup_nil
  have hmem : ∀ b, b ∈ (found.filterMap id).foldl (fun seen b => if seen.contains b then seen else seen ++ [b]) [] ↔
      b ∈ found.filterMap id := fun b => (hall b).trans (by simp)
  refine ⟨hnodup, fun b => (hmem b).trans ⟨fun hb => ?_, fun hb => ?_⟩⟩
  · obtain ⟨answer, hanswer, rfl⟩ := List.mem_filterMap.1 hb
    obtain ⟨i, hi, hask⟩ := Outcome.exists_of_mem_mapM hfound hanswer
    obtain ⟨d, hd, hin⟩ := List.mem_flatMap.1 hi
    split at hask
    · rename_i hkind
      obtain ⟨v, hv, hpure⟩ := Outcome.bind_eq_ok.1 hask
      have hpure := Except.ok.inj hpure
      split at hpure
      · rename_i haddress
        rw [(hs.placed d i).1 hin] at hpure
        obtain rfl := Option.some.inj hpure
        exact ⟨hd, i, hin, hkind, haddress ▸ operand_eq_ok hv⟩
      · cases hpure
    · cases hask
  · obtain ⟨hlisted, i, hi, hkind, haddress⟩ := hb
    obtain ⟨answer, hanswer, hask⟩ := Outcome.exists_of_mapM hfound i (List.mem_flatMap.2 ⟨b, hlisted, hi⟩)
    rw [hkind] at hask
    dsimp only at hask
    unfold Function.operand at hask
    rw [haddress] at hask
    change Except.ok (if address = address then f.blockOf? i else none) = _ at hask
    rw [if_pos rfl, (hs.placed b i).1 hi] at hask
    cases hask
    exact List.mem_filterMap.2 ⟨_, hanswer, rfl⟩

/-- The phis of some slots, by the blocks that store to them; the first of these slots has the number `start`. -/
theorem placed_mapM {tree : DominatorTree} (htree : FrontierBounds f tree) (hs : f.Sound) (hphis : f.PhisFirst)
    {stores : List (List BlockId)} (hstores : ∀ blocks ∈ stores, blocks.Nodup ∧ ∀ b ∈ blocks, b ∈ f.layout) :
    ∀ {start : Nat} {c c' : Function} {new : BlockId → List InstId} {lists : List (List (InstId × Nat))},
      f.Reshaped c new (fun _ => false) id →
      ((stores.zipIdx start).mapM fun (blocks, slot) => (do
        let phis ← placePhis tree zero f.blocks.size .empty (.ofList blocks) blocks.reverse
        return phis.map fun phi => (phi, slot) : Edit (List (InstId × Nat)))).run c = (.ok lists, c') →
      ∃ new', Grown f c c' zero new new' lists.flatten ∧
        (∀ e ∈ lists.flatten, start ≤ e.2 ∧ e.2 < start + stores.length) ∧
        (∀ y k blocks, SlotPhi new' lists.flatten y (start + k) → stores[k]? = some blocks →
          IteratedFrontier (fun x y => y ∈ tree.frontierOf x) (· ∈ blocks) y) ∧
        ∀ k blocks, stores[k]? = some blocks → ∀ x, x ∈ blocks ∨ SlotPhi new' lists.flatten x (start + k) →
          ∀ y ∈ tree.frontierOf x, SlotPhi new' lists.flatten y (start + k) := by
  induction stores with
  | nil =>
    intro start c c' new lists h hrun
    cases hrun
    refine ⟨new, .refl h zero, fun e he => absurd he List.not_mem_nil, fun y k blocks _ hk => ?_, fun k blocks hk => ?_⟩
    all_goals cases hk
  | cons blocks stores ih =>
    intro start c c' new lists h hrun
    rw [List.zipIdx_cons, List.mapM_cons] at hrun
    obtain ⟨first, c₁, hfirst, hrun⟩ := bind_eq_ok hrun
    obtain ⟨more, c₂, hmore, hrun⟩ := bind_eq_ok hrun
    cases hrun
    obtain ⟨phis, c₂, hplace, hpure⟩ := bind_eq_ok hfirst
    cases hpure
    obtain ⟨hnodup, hlisted⟩ := hstores blocks List.mem_cons_self
    have hlimit : blocks.reverse.length + outside f.blocks.size (.ofList blocks) ≤ f.blocks.size := by
      have hcount := outside_foldl_insert (n := f.blocks.size) (s := .empty) hnodup fun b hb =>
        ⟨((hs.mem_layout b).1 (hlisted b hb)).1, NatSet.contains_empty b⟩
      rw [List.length_reverse]
      refine hcount.trans ?_
      unfold outside
      exact (List.length_filter_le _ _).trans (Nat.le_of_eq List.length_range)
    have hqueued : ∀ y, (NatSet.ofList blocks).contains y = true → y ∈ blocks.reverse ∨
        ∀ z ∈ tree.frontierOf y, NatSet.empty.contains z = true := fun y hy =>
      .inl (List.mem_reverse.2 ((NatSet.contains_ofList blocks y).1 hy))
    have hplaced : ∀ y, NatSet.empty.contains y = true → (NatSet.ofList blocks).contains y = true := by
      intro y hy
      rw [NatSet.contains_empty] at hy
      cases hy
    obtain ⟨new₁, hgrown, honly, hclosed⟩ := placePhis_spec htree hs hphis start h hlimit hplaced hqueued hplace
    obtain ⟨new₂, hgrown', hlabels, honly', hclosed'⟩ :=
      ih (fun blocks hb => hstores blocks (List.mem_cons_of_mem _ hb)) hgrown.reshaped hmore
    have hlabel : ∀ e ∈ phis.map fun phi => (phi, start), e.2 = start := by
      intro e he
      obtain ⟨phi, -, rfl⟩ := List.mem_map.1 he
      rfl
    have hnumber : ∀ {y k}, SlotPhi new₁ (phis.map fun phi => (phi, start)) y k → k = start := by
      rintro y k ⟨phi, hphi, -⟩
      exact hlabel _ hphi
    have hlater : ∀ {y k}, SlotPhi new₂ more.flatten y k → start + 1 ≤ k := by
      rintro y k ⟨phi, hphi, -⟩
      exact (hlabels _ hphi).1
    have happend : ∀ y k, SlotPhi new₂ ((phis.map fun phi => (phi, start)) ++ more.flatten) y k ↔
        SlotPhi new₁ (phis.map fun phi => (phi, start)) y k ∨ SlotPhi new₂ more.flatten y k := fun y k =>
      hgrown.slotPhi_append hgrown'
    rw [List.flatten_cons]
    refine ⟨new₂, hgrown.trans hgrown' fun b k hb hb' => ?_, fun e he => ?_, fun y k blocks' hy hk => ?_,
      fun k blocks' hk x hx y hy => ?_⟩
    · exact absurd (hlater hb') (Nat.not_le.2 (Nat.lt_succ_of_le (Nat.le_of_eq (hnumber hb))))
    · rw [List.length_cons]
      rcases List.mem_append.1 he with he | he
      · have := hlabel e he
        omega
      · have := hlabels e he
        omega
    · cases k with
      | zero =>
        cases hk
        rcases (happend y _).1 hy with hy | hy
        · exact (IteratedFrontier.congr (fun _ _ => Iff.rfl) fun x => List.mem_reverse).1 (honly y hy).2
        · exact absurd (hlater hy) (Nat.not_succ_le_self start)
      | succ k =>
        rcases (happend y _).1 hy with hy | hy
        · have := hnumber hy
          omega
        · rw [Nat.add_comm k 1, ← Nat.add_assoc] at hy
          exact honly' y k blocks' hy hk
    · rw [happend] at hx ⊢
      cases k with
      | zero =>
        cases hk
        rw [Nat.add_zero] at hx ⊢
        have hx' : (NatSet.ofList blocks).contains x = true ∨ SlotPhi new₁ (phis.map fun phi => (phi, start)) x start := by
          rcases hx with hx | hx | hx
          · exact .inl ((NatSet.contains_ofList blocks x).2 hx)
          · exact .inr hx
          · exact absurd (hlater hx) (Nat.not_succ_le_self start)
        refine .inl ((hclosed x hx' y hy).resolve_left fun hin => ?_)
        rw [NatSet.contains_empty] at hin
        cases hin
      | succ k =>
        rw [Nat.add_comm k 1, ← Nat.add_assoc] at hx ⊢
        refine .inr (hclosed' k blocks' hk x ?_ y hy)
        rcases hx with hx | hx | hx
        · exact .inl hx
        · have := hnumber hx
          omega
        · exact .inr hx

/-- The phis of all slots: the blocks with one for a slot are the iterated frontier of the blocks that store to it. -/
theorem placeAllPhis_spec {tree : DominatorTree} (htree : FrontierBounds f tree) (hs : f.Sound) (hphis : f.PhisFirst)
    {slots : List ValueId} {entries : List (InstId × Nat)}
    (hrun : (placeAllPhis tree slots).run f = (.ok entries, c')) :
    ∃ c zero new, f.MoreValues c ∧ zero < c.values.size ∧ (c.value zero).kind = .const 0 ∧
      Grown f c c' zero (fun _ => []) new entries ∧ (∀ e ∈ entries, e.2 < slots.length) ∧
      ∀ k address, slots[k]? = some address → ∀ y, SlotPhi new entries y k ↔
        IteratedFrontier (fun x y => y ∈ tree.frontierOf x) (StoresTo f · address) y := by
  unfold placeAllPhis at hrun
  obtain ⟨stores, c₀, hstores, hrun⟩ := bind_eq_ok hrun
  obtain ⟨zero, c, hzero, hrun⟩ := bind_eq_ok hrun
  have hrun := of_get_bind hrun
  obtain ⟨lists, c₂, hplaced, hrun⟩ := bind_eq_ok hrun
  cases hrun
  have hask : ∀ address blocks g g', (ask fun f => storeBlocks f address : Edit _).run g = (.ok blocks, g') →
      storeBlocks g address = .ok blocks ∧ g = g' := fun _ _ _ _ h => ask_eq_ok h
  obtain ⟨rfl, hblocks⟩ := mapM_of_questions hask hstores
  obtain ⟨hmore, hlt, hkind⟩ := internValue_spec rfl hzero
  have hlength : stores.length = slots.length := Outcome.length_of_mapM hblocks
  have hspec : ∀ k address, slots[k]? = some address → ∃ blocks, stores[k]? = some blocks ∧
      storeBlocks f address = .ok blocks := fun k address hk => Outcome.getElem?_of_mapM hblocks hk
  have hgood : ∀ blocks ∈ stores, blocks.Nodup ∧ ∀ b ∈ blocks, b ∈ f.layout := by
    intro blocks hin
    obtain ⟨address, -, hask⟩ := Outcome.exists_of_mem_mapM hblocks hin
    obtain ⟨hnodup, hmem⟩ := storeBlocks_spec hs hask
    exact ⟨hnodup, fun b hb => ((hmem b).1 hb).1⟩
  rw [hmore.blocks_size] at hplaced
  obtain ⟨new, hgrown, hlabels, honly, hclosed⟩ :=
    placed_mapM htree hs hphis hgood ((Function.Reshaped.refl hs).moreValues hmore) hplaced
  refine ⟨c, zero, new, hmore, hlt, hkind, hgrown, fun e he => ?_, fun k address hk y => ?_⟩
  · have := (hlabels e he).2
    omega
  · obtain ⟨blocks, hat, hask⟩ := hspec k address hk
    have hstart := (storeBlocks_spec hs hask).2
    have hfrontier := hclosed k blocks hat
    have hwithin := fun hy => honly y k blocks hy hat
    rw [Nat.zero_add] at hfrontier hwithin
    refine ⟨fun hy => (IteratedFrontier.congr (fun _ _ => Iff.rfl) hstart).1 (hwithin hy), fun hy => ?_⟩
    exact hy.least (fun x hx => hfrontier x (.inl ((hstart x).2 hx))) fun x hx => hfrontier x (.inr hx)

end Edit

end SsaCompiler
