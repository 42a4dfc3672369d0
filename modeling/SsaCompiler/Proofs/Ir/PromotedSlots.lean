import SsaCompiler.Proofs.Ir.PromotedRuns
import SsaCompiler.Proofs.Ir.RenamedSlots

/-!
# Promoting slots

Putting the parts of the promotion together: the slots that it finds are plain, the phis that it places are closed
under frontiers, the walk leaves a coherent plan, and what is taken out in the end is not read.
-/

set_option autoImplicit false

namespace SsaCompiler

open Edits

/-! ## Slots -/

variable {u : Use}

namespace Function

/-- A use of an address that promotion can take out: the base of a load or store that stands in a block, with the
constant zero as its index. -/
def PlainUse (f : Function) (u : Use) : Prop :=
  (f.kind u.user = .load ∨ f.kind u.user = .store) ∧ u.slot = 0 ∧ f.blockOf? u.user ≠ none ∧
    ∃ x, (f.operands u.user)[1]? = some x ∧ (f.value x).kind = .const 0

/-- An instruction in a block that reserves a slot of one word, with the address of the slot. -/
structure WordSlot (f : Function) (i : InstId) (address : ValueId) : Prop where
  placed : i ∈ f.placedInsts
  kind : f.kind i = .alloca 1
  result : f.result? i = some address

/-- A slot of one word, all of whose uses are plain. -/
structure Promotable (f : Function) (i : InstId) (address : ValueId) : Prop extends WordSlot f i address where
  plain : ∀ u, f.reads u = some address → f.PlainUse u

/-- The use index lists the slots that read a value. -/
theorem Sound.mem_uses_iff {f : Function} (hs : f.Sound) {v : ValueId} : u ∈ f.uses v ↔ f.reads u = some v := by
  rw [← List.count_pos_iff, hs.indexed]
  split
  · exact iff_of_true Nat.one_pos ‹_›
  · exact iff_of_false (Nat.lt_irrefl 0) ‹_›

end Function

namespace Edit

variable {f : Function}

/-- A test holds for all elements if it holds for each. -/
theorem allM_eq_true_iff {α : Type} {test : α → Outcome Bool} {l : List α} :
    allM test l = .ok true ↔ ∀ a ∈ l, test a = .ok true := by
  induction l with
  | nil => exact iff_of_true rfl fun a ha => absurd ha List.not_mem_nil
  | cons b l ih =>
    have hstep : allM test (b :: l) = test b >>= fun passed => if passed then allM test l else pure false := rfl
    rw [List.forall_mem_cons, ← ih, hstep, Outcome.bind_eq_ok]
    constructor
    · rintro ⟨passed, hb, h⟩
      cases passed with
      | false => cases h
      | true => exact ⟨hb, h⟩
    · exact fun ⟨hb, h⟩ => ⟨true, hb, h⟩

/-- The uses that pass the test are the plain ones. -/
theorem isPlainAccess_eq_true_iff : isPlainAccess f u = .ok true ↔ f.PlainUse u := by
  have hzero : ∀ x, f.const? x = some 0 ↔ (f.value x).kind = .const 0 := by
    intro x
    unfold Function.const? ValueData.const?
    cases (f.value x).kind <;> simp
  have hplain : (f.kind u.user = .load ∨ f.kind u.user = .store) →
      ((if u.slot = 0 && (f.blockOf? u.user).isSome then do
        let index ← f.operand u.user 1
        return f.const? index == some 0
      else return false : Outcome Bool) = .ok true ↔ f.PlainUse u) := by
    intro hkind
    constructor
    · intro h
      split at h
      · rename_i hslot
        obtain ⟨hslot, hplaced⟩ := Bool.and_eq_true_iff.1 hslot
        obtain ⟨x, hx, hpure⟩ := Outcome.bind_eq_ok.1 h
        exact ⟨hkind, of_decide_eq_true hslot, Option.isSome_iff_ne_none.1 hplaced, x, operand_eq_ok hx,
          (hzero x).1 (eq_of_beq (Except.ok.inj hpure))⟩
      · cases h
    · rintro ⟨-, hslot, hplaced, x, hx, hconst⟩
      rw [if_pos (Bool.and_eq_true_iff.2 ⟨decide_eq_true hslot, Option.isSome_iff_ne_none.2 hplaced⟩)]
      refine Outcome.bind_eq_ok.2 ⟨x, Outcome.ofOption_eq_ok.2 hx, ?_⟩
      rw [(hzero x).2 hconst]
      rfl
  unfold isPlainAccess
  split
  · exact hplain (.inl ‹_›)
  · exact hplain (.inr ‹_›)
  · rename_i hload hstore
    refine iff_of_false (fun h => by cases h) fun h => ?_
    exact h.1.elim (fun hkind => hload hkind) fun hkind => hstore hkind

/-- What is found to be promotable. -/
theorem promotable?_eq_some_iff {i : InstId} {address : ValueId} : promotable? f i = .ok (some address) ↔
    f.kind i = .alloca 1 ∧ f.result? i = some address ∧ ∀ u ∈ f.uses address, f.PlainUse u := by
  have hall : ∀ v, allM (isPlainAccess f) (f.uses v) = .ok true ↔ ∀ u ∈ f.uses v, f.PlainUse u := fun v =>
    allM_eq_true_iff.trans (forall₂_congr fun _ _ => isPlainAccess_eq_true_iff)
  unfold promotable?
  split
  · rename_i v hkind hresult
    constructor
    · intro h
      obtain ⟨passed, hpassed, h⟩ := Outcome.bind_eq_ok.1 h
      cases passed with
      | false => cases h
      | true =>
        cases h
        exact ⟨hkind, hresult, (hall address).1 hpassed⟩
    · rintro ⟨-, hresult', hplain⟩
      obtain rfl := Option.some.inj (hresult.symm.trans hresult')
      exact Outcome.bind_eq_ok.2 ⟨true, (hall v).2 hplain, rfl⟩
  · rename_i hnot
    exact iff_of_false (fun h => by cases h) fun h => hnot address h.1 h.2.1

/-- An instruction is listed once. -/
theorem nodup_placedInsts (hs : f.Sound) : f.placedInsts.Nodup := by
  refine List.nodup_flatMap.2 ⟨fun b _ => hs.nodup b, hs.layout_nodup.pairwise_of_forall_ne ?_⟩
  rintro b - c - hbc
  refine List.disjoint_left.2 fun i hi hi' => hbc ?_
  have hb := (hs.placed b i).1 hi
  rw [(hs.placed c i).1 hi'] at hb
  exact (Option.some.inj hb).symm

/-- The slots that are promoted, in the order of the instructions that reserve them. -/
theorem promotableSlots_spec {slots : List (InstId × ValueId)} (h : promotableSlots f = .ok slots) :
    (slots.map Prod.fst).Sublist f.placedInsts ∧
      ∀ e, e ∈ slots ↔ e.1 ∈ f.placedInsts ∧ promotable? f e.1 = .ok (some e.2) := by
  unfold promotableSlots at h
  obtain ⟨found, hfound, hpure⟩ := Outcome.bind_eq_ok.1 h
  cases hpure
  generalize f.placedInsts = insts at hfound ⊢
  clear h
  induction insts generalizing found with
  | nil =>
    cases hfound
    exact ⟨List.Sublist.refl _, fun e => by simp⟩
  | cons i insts ih =>
    rw [List.mapM_cons] at hfound
    obtain ⟨first, hfirst, hfound⟩ := Outcome.bind_eq_ok.1 hfound
    obtain ⟨more, hmore, hpure⟩ := Outcome.bind_eq_ok.1 hfound
    cases hpure
    obtain ⟨hsub, hslots⟩ := ih more hmore
    obtain ⟨address?, haddress, hpure⟩ := Outcome.bind_eq_ok.1 hfirst
    cases hpure
    cases address? with
    | none =>
      refine ⟨hsub.cons i, fun e => (hslots e).trans (and_congr_left fun he => ?_)⟩
      rw [List.mem_cons, or_iff_right]
      rintro rfl
      rw [haddress] at he
      cases he
    | some address =>
      refine ⟨hsub.cons_cons i, fun e => ?_⟩
      change e ∈ (i, address) :: more.filterMap id ↔ _
      rw [List.mem_cons, hslots, List.mem_cons]
      constructor
      · rintro (rfl | ⟨hin, he⟩)
        · exact ⟨.inl rfl, haddress⟩
        · exact ⟨.inr hin, he⟩
      · rintro ⟨hi | hin, he⟩
        · rw [hi, haddress] at he
          exact .inl (Prod.ext hi (Option.some.inj (Except.ok.inj he)).symm)
        · exact .inr ⟨hin, he⟩

/-- The slots that are promoted are the promotable ones. -/
theorem mem_promotableSlots_iff (hs : f.Sound) {slots : List (InstId × ValueId)} (h : promotableSlots f = .ok slots)
    {e : InstId × ValueId} : e ∈ slots ↔ f.Promotable e.1 e.2 := by
  rw [(promotableSlots_spec h).2, promotable?_eq_some_iff]
  constructor
  · rintro ⟨hplaced, hkind, hresult, hplain⟩
    exact ⟨⟨hplaced, hkind, hresult⟩, fun u hu => hplain u (hs.mem_uses_iff.2 hu)⟩
  · rintro ⟨⟨hplaced, hkind, hresult⟩, hplain⟩
    exact ⟨hplaced, hkind, hresult, fun u hu => hplain u (hs.mem_uses_iff.1 hu)⟩

/-- The slots that are promoted are plain. -/
theorem plain_of_promotableSlots (hs : f.Sound) {slots : List (InstId × ValueId)} (h : promotableSlots f = .ok slots) :
    SlotPlan.Plain slots f := by
  have hsub := (promotableSlots_spec h).1
  have hslots : ∀ e ∈ slots, f.Promotable e.1 e.2 := fun e he => (mem_promotableSlots_iff hs h).1 he
  have hreserve : ∀ e ∈ slots, f.kind e.1 = .alloca 1 ∧ f.result? e.1 = some e.2 := fun e he =>
    ⟨(hslots e he).kind, (hslots e he).result⟩
  have hplain : ∀ {i : InstId} {slot : Nat} {v : ValueId}, (f.operands i)[slot]? = some v → v ∈ slots.map Prod.snd →
      f.PlainUse ⟨i, slot⟩ := by
    intro i slot v hv hin
    obtain ⟨e, he, rfl⟩ := List.mem_map.1 hin
    exact (hslots e he).plain ⟨i, slot⟩ hv
  refine ⟨hreserve, ?_, fun b i _ _ _ v hv hin => ?_, fun b i slot v _ _ hv hin => ?_⟩
  · refine List.Nodup.map_on ?_ ((hsub.nodup (nodup_placedInsts hs)).of_map _)
    intro e he e' he' heq
    have hkind := (hs.kind_of_result e.1 e.2 (hreserve e he).2).2
    rw [heq, (hs.kind_of_result e'.1 e'.2 (hreserve e' he').2).2] at hkind
    exact Prod.ext (ValueKind.inst.inj hkind).symm heq
  · exact (hplain hv hin).2.2.2
  · obtain ⟨hkind, hslot, -⟩ := hplain hv hin
    exact ⟨hslot, hkind⟩

/-! ## Graphs -/

variable {e : BlockId} {count : Nat}

/-- Dominance in a function is dominance in its graph. -/
theorem dominates_cfg (he : f.layout.head? = some e) (a b : BlockId) : f.cfg.Dominates a b ↔ f.Dominates a b := by
  have hentry : f.cfg.entry = e := by
    obtain ⟨rest, hlayout⟩ := List.head?_eq_some_iff.1 he
    unfold Function.cfg
    rw [hlayout]
    rfl
  refine not_congr ⟨fun h => ?_, fun h => ?_⟩
  · induction h with
    | entry hne => exact .entry (hentry ▸ he) hne
    | step _ hedge hne ih => exact .step ih hedge hne
  · induction h with
    | entry he' hne =>
      obtain rfl := Option.some.inj (he.symm.trans he')
      rw [← hentry] at hne ⊢
      exact .entry hne
    | step _ hedge hne ih => exact .step ih hedge hne

/-- The graph of a function has the edges that its predecessor lists name. -/
theorem consistent_cfg (hw : f.Wired) : f.cfg.Consistent := by
  obtain ⟨e, he⟩ := hw.entry
  intro p b hp hb
  exact hw.preds p b ((Function.reachable_iff he p).1 hp) ((Function.reachable_iff he b).1 hb)

/-- The frontiers of a block in terms of paths. -/
theorem mem_frontierOf_iff (hw : f.Wired) {tree : DominatorTree} (h : DominatorTree.ofCfg f.cfg = .ok tree)
    (a : BlockId) : (tree.frontierOf a).Nodup ∧ ∀ y,
      y ∈ tree.frontierOf a ↔ f.Reach a ∧ ∃ p, f.Reach p ∧ f.Edge p y ∧ f.Dominates a p ∧ (f.Dominates a y → a = y) := by
  obtain ⟨e, he⟩ := hw.entry
  obtain ⟨hnodup, hmem⟩ := DominatorTree.Exact.mem_frontierOf_iff ⟨h, consistent_cfg hw⟩ a
  refine ⟨hnodup, fun y => (hmem y).trans ?_⟩
  rw [Function.reachable_iff he]
  refine and_congr_right fun _ => exists_congr fun p => ?_
  rw [Function.reachable_iff he, dominates_cfg he, dominates_cfg he]
  exact Iff.rfl

/-- The frontiers of a function lie in its layout. -/
theorem frontierBounds (hw : f.Wired) {tree : DominatorTree} (h : DominatorTree.ofCfg f.cfg = .ok tree) :
    FrontierBounds f tree where
  nodup x := (mem_frontierOf_iff hw h x).1
  listed x y hy := by
    obtain ⟨-, p, hp, hedge, -⟩ := ((mem_frontierOf_iff hw h x).2 y).1 hy
    exact hw.listed y (hp.step hedge)

/-! ## Taking out -/

variable {c c' : Function} {new : BlockId → List InstId} {gone : InstId → Bool} {stand : ValueId → ValueId}

/-- Taking out instructions of the function that are no phis. -/
theorem removeOld_spec {slots : List (InstId × ValueId)}
    (hslots : ∀ e ∈ slots, e.1 < f.insts.size ∧ (f.kind e.1).isPhi = false) : ∀ {c c' : Function} {gone : InstId → Bool},
      f.Reshaped c new gone stand → (slots.forM fun (i, _) => removeInst i).run c = (.ok (), c') →
      f.Reshaped c' new (fun i => gone i || slots.any fun e => e.1 == i) stand ∧ c.Alike c' ∧
        ∀ j, f.insts.size ≤ j → c'.operands j = c.operands j := by
  induction slots with
  | nil =>
    intro c c' gone h hrun
    cases hrun
    exact ⟨h.congr (fun i => by simp) fun _ => rfl, .refl c, fun _ _ => rfl⟩
  | cons e slots ih =>
    intro c c' gone h hrun
    obtain ⟨⟨⟩, c₁, hfirst, hrest⟩ := bind_eq_ok hrun
    obtain ⟨hlt, hphi⟩ := hslots e List.mem_cons_self
    obtain ⟨-, halike, -, -, -, hoperands, -⟩ := h.removed hfirst
    obtain ⟨h', halike', hoperands'⟩ :=
      ih (fun e' he' => hslots e' (List.mem_cons_of_mem _ he')) (h.removeOld hlt hphi hfirst) hrest
    refine ⟨h'.congr (fun i => ?_) fun _ => rfl, halike.trans halike', fun j hj => ?_⟩
    · rw [List.any_cons, Bool.or_assoc, BEq.comm (a := i)]
    · rw [hoperands' j hj, hoperands j (Nat.ne_of_gt (Nat.lt_of_lt_of_le hlt hj))]

/-- The instructions that reserve slots are no phis. -/
theorem reserved_old {slots : List (InstId × ValueId)} (h : SlotPlan.Plain slots f) :
    ∀ e ∈ slots, e.1 < f.insts.size ∧ (f.kind e.1).isPhi = false := by
  intro e he
  obtain ⟨hkind, hresult⟩ := h.reserve e he
  refine ⟨?_, by rw [hkind]; rfl⟩
  by_contra hge
  unfold Function.result? at hresult
  rw [inst_of_size_le (Nat.le_of_not_lt hge)] at hresult
  cases hresult

/-- Nothing reads the result of an instruction. -/
def Unread (c : Function) (i : InstId) : Prop := ∀ r, c.result? i = some r → ∀ j, r ∉ c.operands j

variable {f' : Function} {dead : List InstId} {stats : PromotionStats}

/-- Taking out added phis, which nothing reads then. -/
theorem removeNew_spec (hs : f.Sound) (hdead : ∀ i ∈ dead, f.insts.size ≤ i) :
    ∀ {c c' : Function} {new : BlockId → List InstId}, f.Reshaped c new gone stand →
      (dead.forM removeInst).run c = (.ok (), c') →
      ∃ new', f.Reshaped c' new' gone stand ∧ c.Alike c' ∧ (∀ j, j ∉ dead → c'.operands j = c.operands j) ∧
        (∀ b j, j ∈ new' b ↔ j ∈ new b ∧ j ∉ dead) ∧
        (∀ j, ∀ v ∈ c'.operands j, v ∈ c.operands j) ∧ ∀ i ∈ dead, Unread c' i := by
  induction dead with
  | nil =>
    intro c c' new h hrun
    cases hrun
    exact ⟨new, h, .refl c, fun _ _ => rfl, fun b j => by simp, fun _ _ hv => hv, fun i hi => absurd hi List.not_mem_nil⟩
  | cons i dead ih =>
    intro c c' new h hrun
    obtain ⟨⟨⟩, c₁, hfirst, hrest⟩ := bind_eq_ok hrun
    obtain ⟨-, halike, -, -, -, hoperands, hunused, hnone⟩ := h.removed hfirst
    obtain ⟨new', h', halike', hoperands', hnew, hsub, hunread⟩ := ih (fun j hj => hdead j (List.mem_cons_of_mem _ hj))
      (h.removeNew hs (hdead i List.mem_cons_self) hfirst) hrest
    have hsub₁ : ∀ j, ∀ v ∈ c₁.operands j, v ∈ c.operands j := by
      intro j v hv
      by_cases hj : j = i
      · rw [hj, hnone] at hv
        cases hv
      · rwa [← hoperands j hj]
    refine ⟨new', h', halike.trans halike', fun j hj => ?_, fun b j => ?_, fun j v hv => hsub₁ j v (hsub j v hv),
      fun j hj => ?_⟩
    · obtain ⟨hji, hj⟩ := not_or.1 fun hor => hj (List.mem_cons.2 hor)
      rw [hoperands' j hj, hoperands j hji]
    · rw [hnew, List.mem_filter, bne_iff_ne, List.mem_cons, not_or, and_assoc]
    · rcases List.mem_cons.1 hj with rfl | hj
      · intro r hr j' hin
        have hr' : c.result? j = some r := by rw [← halike.result, ← halike'.result]; exact hr
        -- A slot that reads the result would be in the use index.
        obtain ⟨slot, hslot⟩ := List.getElem?_of_mem (hsub₁ j' r (hsub j' r hin))
        have hcount := h.sound.indexed r ⟨j', slot⟩
        have hreads : c.reads ⟨j', slot⟩ = some r := hslot
        rw [hunused r hr', if_pos hreads] at hcount
        cases hcount
      · exact hunread j hj

/-- Making all slots of added phis read one value. -/
theorem setAllOperands_spec (v : ValueId) (hdead : ∀ i ∈ dead, f.insts.size ≤ i) :
    ∀ {c c' : Function}, f.Reshaped c new gone stand →
      (dead.forM fun phi => (do
        (List.range ((← get).operands phi).length).forM fun slot => setOperand phi slot v : Edit Unit)).run c =
        (.ok (), c') →
      f.Reshaped c' new gone stand ∧ c.Alike c' ∧ (∀ j, j ∉ dead → c'.operands j = c.operands j) ∧
        ∀ j ∈ dead, ∀ w ∈ c'.operands j, w = v := by
  induction dead with
  | nil =>
    intro c c' h hrun
    cases hrun
    exact ⟨h, .refl c, fun _ _ => rfl, fun j hj => absurd hj List.not_mem_nil⟩
  | cons i dead ih =>
    intro c c' h hrun
    obtain ⟨⟨⟩, c₁, hfirst, hrest⟩ := bind_eq_ok hrun
    have hfirst := of_get_bind hfirst
    obtain ⟨h₁, halike, hset, hother⟩ := SlotPlan.setOperands_spec (hdead i List.mem_cons_self) v h hfirst
    obtain ⟨h₂, halike', hother', hall⟩ := ih (fun j hj => hdead j (List.mem_cons_of_mem _ hj)) h₁ hrest
    refine ⟨h₂, halike.trans halike', fun j hj => ?_, fun j hj w hw => ?_⟩
    · obtain ⟨hji, hj⟩ := not_or.1 fun hor => hj (List.mem_cons.2 hor)
      rw [hother' j hj, hother j hji]
    · by_cases hlater : j ∈ dead
      · exact hall j hlater w hw
      · obtain rfl := (List.mem_cons.1 hj).resolve_right hlater
        rw [hother' j hlater, hset] at hw
        obtain ⟨slot, hslot⟩ := List.mem_iff_getElem?.1 hw
        rw [getElem?_foldl_set] at hslot
        split at hslot
        · obtain ⟨old, -, hv⟩ := Option.map_eq_some_iff.1 hslot
          exact hv.symm
        · rename_i hout
          rw [List.mem_range, Nat.not_lt] at hout
          rw [List.getElem?_eq_none hout] at hslot
          cases hslot

/-- Removing the added phis on which nothing depends: those that stay are as they were, and nothing reads the
others. -/
theorem removeDeadPhis_spec (h : f.Reshaped c new gone stand) (hs : f.Sound) {phis : List InstId}
    (hphis : ∀ i ∈ phis, f.insts.size ≤ i) (hrun : (removeDeadPhis phis).run c = (.ok count, c')) :
    ∃ new', f.Reshaped c' new' gone stand ∧ (∀ b j, j ∈ new' b → j ∈ new b ∧ c'.operands j = c.operands j) ∧
      (∀ b j, j ∈ new b → j ∈ new' b ∨ Unread c' j) ∧ (∀ i, c'.result? i = c.result? i) ∧
      ∀ v, v < c.values.size → (c'.value v).kind = (c.value v).kind := by
  unfold removeDeadPhis at hrun
  obtain ⟨live, -, hrun⟩ := ask_bind_eq_ok hrun
  dsimp only at hrun
  generalize hdead : (phis.filter fun phi => !live.contains phi) = dead at hrun
  obtain ⟨zero, c₁, hzero, hrun⟩ := bind_eq_ok hrun
  obtain ⟨⟨⟩, c₂, hset, hrun⟩ := bind_eq_ok hrun
  obtain ⟨⟨⟩, c₃, hremove, hrun⟩ := bind_eq_ok hrun
  cases hrun
  have hlarge : ∀ i ∈ dead, f.insts.size ≤ i := by
    intro i hi
    rw [← hdead] at hi
    exact hphis i (List.mem_filter.1 hi).1
  obtain ⟨hmore, -, -⟩ := internValue_spec rfl hzero
  obtain ⟨h₂, halike, hsame, -⟩ := setAllOperands_spec zero hlarge (h.moreValues hmore) hset
  obtain ⟨new', h₃, halike', hsame', hnew, -, hunread⟩ := removeNew_spec hs hlarge h₂ hremove
  have hinst : ∀ i, c₁.inst i = c.inst i := hmore.inst
  refine ⟨new', h₃, fun b j hj => ?_, fun b j hj => ?_, fun i => ?_, fun v hv => ?_⟩
  · obtain ⟨hin, hnot⟩ := (hnew b j).1 hj
    refine ⟨hin, ?_⟩
    rw [hsame' j hnot, hsame j hnot]
    exact congrArg InstData.operands (hinst j)
  · by_cases hj' : j ∈ dead
    · exact .inr (hunread j hj')
    · exact .inl ((hnew b j).2 ⟨hj, hj'⟩)
  · rw [halike'.result, halike.result]
    exact congrArg InstData.result (hinst i)
  · rw [halike'.kinds, halike.kinds, hmore.kinds v hv]

/-! ## The plan -/

/-- The phi of a block for a slot, with its result. -/
def phiOf? (f : Function) (new : BlockId → List InstId) (entries : List (InstId × Nat)) (b : BlockId) (k : Nat) :
    Option (InstId × ValueId) :=
  ((new b).find? fun phi => entries.lookup phi == some k).bind fun phi => (f.result? phi).map fun r => (phi, r)

/-- The plan with which the walk begins. -/
def firstPlan (slots : List (InstId × ValueId)) (zero : ValueId) (f : Function) (new : BlockId → List InstId)
    (entries : List (InstId × Nat)) : SlotPlan where
  slots := slots
  stand := id
  zero := zero
  phi? := phiOf? f new entries
  inn _ _ := zero

section Placed

variable {f₂ : Function} {slots : List (InstId × ValueId)} {tree : DominatorTree} {entries : List (InstId × Nat)}
  {zero : ValueId}

/-- A function with plain slots, and the same with phis for them. -/
structure Laid (f f₂ : Function) (slots : List (InstId × ValueId)) (tree : DominatorTree)
    (new : BlockId → List InstId) (entries : List (InstId × Nat)) (zero : ValueId) : Prop where
  sound : f.Sound
  regular : f.Regular
  plain : SlotPlan.Plain slots f
  exact : DominatorTree.ofCfg f.cfg = .ok tree
  reshaped : f.Reshaped f₂ new (fun _ => false) id
  keys : ∀ e ∈ entries, f.insts.size ≤ e.1
  nodup : (entries.map Prod.fst).Nodup
  labels : ∀ e ∈ entries, e.2 < slots.length
  one : ∀ b k phi phi', (phi, k) ∈ entries → (phi', k) ∈ entries → phi ∈ new b → phi' ∈ new b → phi = phi'
  mem : ∀ b phi, phi ∈ new b → phi ∈ entries.map Prod.fst
  gives : ∀ e ∈ entries, ∀ b, e.1 ∈ new b → (f₂.result? e.1).isSome = true
  frontier : ∀ y k, SlotPhi new entries y k → ∃ x, y ∈ tree.frontierOf x
  closed : ∀ k address, (slots.map Prod.snd)[k]? = some address → ∀ x, StoresTo f x address ∨ SlotPhi new entries x k →
    ∀ y ∈ tree.frontierOf x, SlotPhi new entries y k
  zero : zero < f₂.values.size ∧ (f₂.value zero).kind = .const 0

/-- Placing the phis of the slots. -/
theorem laid_of_placeAllPhis {f₁ : Function} (hs : f.Sound) (hr : f.Regular) (hslots : promotableSlots f = .ok slots)
    (htree : DominatorTree.ofCfg f.cfg = .ok tree)
    (hplace : (placeAllPhis tree (slots.map (·.2))).run f = (.ok entries, f₁))
    (hzero : (constValue 0).run f₁ = (.ok zero, f₂)) :
    ∃ new first, Laid f f₂ slots tree new entries zero ∧ (∀ i, f.result? i ≠ some first) ∧
      (∀ e ∈ entries, ∀ b, e.1 ∈ new b → f₂.operands e.1 = List.replicate (f.preds b).length first) ∧
      (∀ e ∈ entries, ∃ b, e.1 ∈ new b) ∧ ∀ i, f.insts.size ≤ i → i < f₂.insts.size → i ∈ entries.map Prod.fst := by
  obtain ⟨c, first, new, hmore, hfirst, hconst, hgrown, hlabels, hiterated⟩ :=
    placeAllPhis_spec (frontierBounds (hr.wired hs) htree) hs hr.phis_first hplace
  have hslot : ∀ {y k}, SlotPhi new entries y k → ∃ address, (slots.map (·.2))[k]? = some address := fun hy => by
    obtain ⟨phi, hphi, -⟩ := hy
    exact ⟨_, List.getElem?_eq_getElem (hlabels _ hphi)⟩
  obtain ⟨hmore', hlt, hkind⟩ := internValue_spec rfl hzero
  refine ⟨new, first, ⟨hs, hr, plain_of_promotableSlots hs hslots, htree, hgrown.reshaped.moreValues hmore',
    fun e he => ?_, hgrown.nodup, fun e he => ?_, hgrown.one, fun b phi hin => ?_, fun e he b hin => ?_, fun y k hy => ?_,
    fun k address hk x hx y hy => ?_, hlt, hkind⟩, fun i hi => ?_, fun e he b hin => ?_, fun e he => ?_, fun i hle hlt => ?_⟩
  · rw [← hmore.insts_size]
    exact (hgrown.keys e he).1
  · have hlt := hlabels e he
    rwa [List.length_map] at hlt
  · exact (hgrown.mem b phi hin).resolve_left List.not_mem_nil
  · have hgives := (hgrown.filled e he b hin).2
    unfold Function.result? at hgives ⊢
    rwa [hmore'.inst]
  · obtain ⟨address, hk⟩ := hslot hy
    exact ((hiterated k address hk y).1 hy).exists_frontier
  · refine (hiterated k address hk y).2 ?_
    rcases hx with hx | hx
    · exact .first hx hy
    · exact .next ((hiterated k address hk x).1 hx) hy
  · obtain ⟨hsize, hinst⟩ := hs.kind_of_result i first hi
    rw [← hmore.kinds first hsize, hconst] at hinst
    cases hinst
  · have hoperands := (hgrown.filled e he b hin).1
    unfold Function.operands at hoperands ⊢
    rwa [hmore'.inst]
  · obtain ⟨b, -, hb⟩ := hgrown.site e he
    exact ⟨b, hb⟩
  · exact hgrown.cover i (hmore.insts_size ▸ hle) (hmore'.insts_size ▸ hlt)

namespace Laid

variable {b : BlockId} {phi : InstId} {k : Nat} {r : ValueId}

variable (h : Laid f f₂ slots tree new entries zero)

include h

/-- The phis of a block are found, and only those. -/
theorem phiOf?_eq_some_iff : phiOf? f₂ new entries b k = some (phi, r) ↔
      phi ∈ new b ∧ (phi, k) ∈ entries ∧ f₂.result? phi = some r := by
  have hfound : ∀ {phi}, (new b).find? (fun phi => entries.lookup phi == some k) = some phi → (phi, k) ∈ entries := by
    intro phi hfind
    have htest := List.find?_some hfind
    exact mem_of_lookup (by simpa using htest)
  unfold phiOf?
  rw [Option.bind_eq_some_iff]
  constructor
  · rintro ⟨phi', hfind, hmap⟩
    obtain ⟨r', hr', hpair⟩ := Option.map_eq_some_iff.1 hmap
    cases hpair
    exact ⟨List.mem_of_find?_eq_some hfind, hfound hfind, hr'⟩
  · rintro ⟨hin, hentry, hr⟩
    have hlookup := lookup_eq_some_of_mem h.nodup hentry
    cases hfind : (new b).find? fun phi => entries.lookup phi == some k with
    | none => exact absurd (beq_iff_eq.2 hlookup) (List.find?_eq_none.1 hfind phi hin)
    | some phi' =>
      obtain rfl := h.one b k phi phi' hentry (hfound hfind) hin (List.mem_of_find?_eq_some hfind)
      exact ⟨phi, rfl, by rw [hr]; rfl⟩

/-- A phi is found for the blocks and slots that have one. -/
theorem isSome_phiOf?_iff (b : BlockId) (k : Nat) :
    (phiOf? f₂ new entries b k).isSome = true ↔ SlotPhi new entries b k := by
  constructor
  · intro hsome
    obtain ⟨e, he⟩ := Option.isSome_iff_exists.1 hsome
    obtain ⟨hin, hentry, -⟩ := h.phiOf?_eq_some_iff.1 he
    exact ⟨e.1, hentry, hin⟩
  · rintro ⟨phi, hentry, hin⟩
    obtain ⟨r, hr⟩ := Option.isSome_iff_exists.1 (h.gives _ hentry b hin)
    rw [h.phiOf?_eq_some_iff.2 ⟨hin, hentry, hr⟩]
    rfl

/-- A block with a phi is in a frontier, so an edge leads there. -/
theorem exists_edge {e : InstId × ValueId} (he : phiOf? f₂ new entries b k = some e) : ∃ p, f.Reach p ∧ f.Edge p b := by
  obtain ⟨x, hx⟩ := h.frontier b k ((h.isSome_phiOf?_iff b k).1 (by rw [he]; rfl))
  obtain ⟨-, p, hp, hedge, -⟩ := ((mem_frontierOf_iff (h.regular.wired h.sound) h.exact x).2 b).1 hx
  exact ⟨p, hp, hedge⟩

section

variable (he : phiOf? f₂ new entries b k = some (phi, r))

include he

/-- The result of a phi is computed by it. -/
theorem kind_of_phiOf? : (f₂.value r).kind = .inst phi :=
  (h.reshaped.sound.kind_of_result phi r (h.phiOf?_eq_some_iff.1 he).2.2).2

/-- The result of a phi is no value of the function as it was. -/
theorem size_le_of_phiOf? : f.values.size ≤ r := by
  by_contra hlt
  have hlt := Nat.lt_of_not_le hlt
  have hinst := h.kind_of_phiOf? he
  rw [h.reshaped.kinds r hlt] at hinst
  have hr := h.sound.result_of_kind phi r hlt hinst
  unfold Function.result? at hr
  rw [inst_of_size_le (h.keys _ (h.phiOf?_eq_some_iff.1 he).2.1)] at hr
  cases hr

/-- A value is the result of one phi alone, for one block and slot. -/
theorem phiOf?_inj {b' : BlockId} {k' : Nat} {phi' : InstId} (he' : phiOf? f₂ new entries b' k' = some (phi', r)) :
    b = b' ∧ k = k' := by
  have hsame := h.kind_of_phiOf? he
  rw [h.kind_of_phiOf? he'] at hsame
  obtain rfl := ValueKind.inst.inj hsame
  obtain ⟨hin, hentry, -⟩ := h.phiOf?_eq_some_iff.1 he
  obtain ⟨hin', hentry', -⟩ := h.phiOf?_eq_some_iff.1 he'
  have hlookup := lookup_eq_some_of_mem h.nodup hentry
  rw [lookup_eq_some_of_mem h.nodup hentry'] at hlookup
  have hplaced : ∀ d, phi' ∈ new d → f₂.blockOf? phi' = some d := by
    intro d hd
    refine (h.reshaped.sound.placed d phi').1 ?_
    rw [h.reshaped.insts]
    exact List.mem_append_left _ (List.mem_append_right _ hd)
  have hblock := hplaced b hin
  rw [hplaced b' hin'] at hblock
  exact ⟨(Option.some.inj hblock).symm, (Option.some.inj hlookup).symm⟩

end

/-- The phis of the plan are closed under frontiers. -/
theorem phis : (firstPlan slots zero f₂ new entries).Phis f where
  reach b k e he := by
    obtain ⟨p, hp, hedge⟩ := h.exists_edge he
    exact hp.step hedge
  fresh b k phi r he := h.size_le_of_phiOf? he
  entry d k hd := by
    rw [← Option.not_isSome_iff_eq_none]
    intro hsome
    obtain ⟨e, he⟩ := Option.isSome_iff_exists.1 hsome
    obtain ⟨p, hp, hedge⟩ := h.exists_edge he
    exact h.regular.not_edge_entry h.sound hd hp hedge
  inj b b' k k' phi phi' r he he' := h.phiOf?_inj he he'
  zero_const hlt := (h.reshaped.kinds zero hlt).symm.trans h.zero.2
  zero_not_phi b k phi he := by
    have hinst := h.kind_of_phiOf? he
    have hconst := h.zero.2
    change (f₂.value zero).kind = _ at hinst
    rw [hconst] at hinst
    cases hinst
  closed k hk a p b ha hp hedge hdom hstrictly := by
    have hfrontier : b ∈ tree.frontierOf a := ((mem_frontierOf_iff (h.regular.wired h.sound) h.exact a).2 b).2
      ⟨hdom.reach hp, p, hp, hedge, hdom, hstrictly⟩
    have hlt : k < (slots.map Prod.snd).length := by
      rw [List.length_map]
      exact hk
    refine (h.isSome_phiOf?_iff b k).2 (h.closed k _ (List.getElem?_eq_getElem hlt) a ?_ b hfrontier)
    rcases ha with ha | ⟨i, hi, hstore, haccess⟩
    · exact .inr ((h.isSome_phiOf?_iff a k).1 ha)
    · refine .inl ⟨h.regular.mem_layout_of_reach h.sound (hdom.reach hp), i, hi, hstore, ?_⟩
      obtain ⟨-, v, hv, hidx⟩ := SlotPlan.accessOf?_eq_some_iff.1 haccess
      obtain ⟨_, hat, -⟩ := List.idxOf?_eq_some_iff.1 hidx
      rw [hv, ← hat]
      rfl

/-- What the walk starts from. -/
theorem prepared (hstrict : f.Strict) : (firstPlan slots zero f₂ new entries).Prepared f f₂ new entries where
  sound := h.sound
  regular := h.regular
  strict := hstrict
  plain := h.plain
  phis := h.phis
  keys := h.keys
  nodup := h.nodup
  labels := h.labels
  listed b phi hin := by
    obtain ⟨e, he, rfl⟩ := List.mem_map.1 (h.mem b phi hin)
    obtain ⟨r, hr⟩ := Option.isSome_iff_exists.1 (h.gives e he b hin)
    exact ⟨e.2, r, h.phiOf?_eq_some_iff.2 ⟨hin, he, hr⟩⟩
  phi b k phi r he := h.phiOf?_eq_some_iff.1 he

/-- The walk begins with nothing passed. -/
theorem walking {first : ValueId} (hfirst : ∀ i, f.result? i ≠ some first)
    (hfilled : ∀ e ∈ entries, ∀ b, e.1 ∈ new b → f₂.operands e.1 = List.replicate (f.preds b).length first) :
    (firstPlan slots zero f₂ new entries).Walking f f₂ f₂ new [] (fun _ _ => first) [] := by
  have hcarried : (firstPlan slots zero f₂ new entries).Carried f [] :=
    ⟨fun _ _ _ _ hi => absurd hi List.not_mem_nil, fun _ _ => rfl, fun _ hi => absurd hi List.not_mem_nil,
      fun _ _ _ _ _ _ hi => absurd hi List.not_mem_nil, fun _ hi => absurd hi List.not_mem_nil⟩
  refine ⟨⟨hcarried, h.reshaped.congr (fun i => by simp) fun _ => rfl, .refl f₂, fun b k phi r he => ?_,
    fun _ k hk => ⟨fun hin => ?_, fun i hi => hfirst i hi.2.2⟩⟩, ⟨hcarried, fun i => by simp, ?_, ?_⟩, ?_, ?_⟩
  · obtain ⟨hin, hentry, -⟩ := h.phiOf?_eq_some_iff.1 he
    rw [hfilled _ hentry b hin, List.map_const']
  · obtain ⟨e, he, heq⟩ := List.mem_map.1 hin
    exact hfirst e.1 (heq ▸ (h.plain.reserve e he).2)
  · exact fun b hb => absurd hb List.not_mem_nil
  · intro later b earlier hsplit
    simp at hsplit
  · exact fun b hb => absurd hb List.not_mem_nil
  · exact fun b hb => absurd hb List.not_mem_nil

end Laid

/-- What is left at the end follows the plan that the walk has made. -/
theorem promoted_of_walking {plan : SlotPlan} {c₃ c₄ : Function} {done : List InstId} {fill : BlockId → Nat → ValueId}
    {blocks : List BlockId} (hp : plan.Prepared f f₂ new entries)
    (hzero : plan.zero < f₂.values.size ∧ (f₂.value plan.zero).kind = .const 0)
    (h : plan.Walking f f₂ c₃ new done fill blocks) (hblocks : ∀ b, b ∈ blocks ↔ f.Reach b)
    (hslots : (plan.slots.forM fun (i, _) => removeInst i).run c₃ = (.ok (), c₄))
    (hdead : (removeDeadPhis (entries.map Prod.fst)).run c₄ = (.ok count, f')) :
    ∃ new', plan.Promoted f f' new' ∧ f'.layout = f.layout ∧ (∀ i, f'.result? i = f₂.result? i) ∧
      ∀ b j, j ∈ new' b → j ∈ new b ∧ f'.operands j = c₃.operands j := by
  have hcoherent := h.visited.coherent hp.phis hp.sound hp.regular hblocks
  obtain ⟨h₄, halike, hoperands⟩ := removeOld_spec (reserved_old hp.plain) h.state.reshaped hslots
  have hlarge : ∀ i ∈ entries.map Prod.fst, f.insts.size ≤ i := by
    intro i hi
    obtain ⟨e, he, rfl⟩ := List.mem_map.1 hi
    exact hp.keys e he
  obtain ⟨new', h', hkept, hunread, hresult, hkinds⟩ := removeDeadPhis_spec h₄ hp.sound hlarge hdead
  -- In the blocks that are reached, the instructions of the plan are gone and no others.
  have hgone : ∀ b i, f.Reach b → i ∈ f.instsOf b →
      ((done.contains i && (plan.accessOf? f i).isSome) || plan.slots.any fun e => e.1 == i) = plan.isGone f i := by
    intro b i hb hi
    have hdone : done.contains i = true :=
      List.contains_iff_mem.2 ((h.visited.passed i).2 ⟨b, (hblocks b).2 hb, hi⟩)
    unfold SlotPlan.isGone
    rw [hdone, Bool.true_and, Bool.or_comm]
  have hresult' : ∀ i, f'.result? i = f₂.result? i := fun i => by
    rw [hresult, halike.result, h.state.alike.result]
  have hnew : ∀ b j, j ∈ new' b → j ∈ new b ∧ f'.operands j = c₃.operands j := by
    intro b j hj
    obtain ⟨hin, hsame⟩ := hkept b j hj
    obtain ⟨k, r, he⟩ := hp.listed b j hin
    exact ⟨hin, hsame.trans (hoperands j (hp.keys _ (hp.phi b k j r he).2.1))⟩
  refine ⟨new', ⟨hcoherent, hp.plain.reserve, hp.plain.distinct, fun b i k hb hi hk => ?_,
    fun b i slot v hb hi hv hin => ?_, by rw [h'.layout], h'.preds, fun b hb => ?_, fun b i hb hi hnot => ?_, h'.kinds, ?_,
    fun b phi hin => ?_, fun b k phi r he hin => ?_, fun b i v hb hi hv d k phi he => ?_⟩, h'.layout, hresult', hnew⟩
  · obtain ⟨hkind, v, hv, hidx⟩ := SlotPlan.accessOf?_eq_some_iff.1 hk
    exact hp.plain.index b i hb hi hkind v hv (List.isSome_idxOf?.1 (Option.isSome_iff_exists.2 ⟨k, hidx⟩))
  · obtain ⟨hslot, hkind⟩ := hp.plain.only b i slot v hb hi hv hin
    refine ⟨hslot, ?_⟩
    subst hslot
    obtain ⟨k, hk⟩ := Option.isSome_iff_exists.1 (List.isSome_idxOf?.2 hin)
    rw [SlotPlan.accessOf?_eq_some_iff.2 ⟨hkind, v, hv, hk⟩]
    exact Option.some_ne_none k
  · rw [h'.insts]
    refine congrArg _ (List.filter_congr fun i hi => ?_)
    rw [hgone b i hb ((List.dropWhile_sublist _).subset hi)]
  · have hlt := hp.sound.lt_insts_size hi
    exact ⟨h'.kind i hlt, h'.result i hlt, h'.operands i hlt ((hgone b i hb hi).trans hnot)⟩
  · rw [hkinds plan.zero (by rw [halike.values_size, h.state.alike.values_size]; exact hzero.1), halike.kinds,
      h.state.alike.kinds]
    exact hzero.2
  · obtain ⟨k, r, he⟩ := hp.listed b phi (hkept b phi hin).1
    exact ⟨(h'.fresh b phi hin).2, k, r, hp.labels _ (hp.phi b k phi r he).2.1, he⟩
  · obtain ⟨-, hentry, hr⟩ := hp.phi b k phi r he
    have hr' : f'.result? phi = some r := (hresult' phi).trans hr
    refine ⟨hr', (h'.sound.kind_of_result phi r hr').2, fun slot p hp' hreach => ?_⟩
    rw [(hnew b phi hin).2, h.state.filled b k phi r he, List.getElem?_map, hp']
    exact congrArg some (h.ends p ((hblocks p).2 hreach) k (hp.labels _ hentry))
  · obtain ⟨hin, -, hr⟩ := hp.phi d k phi v he
    exact (hunread d phi hin).resolve_right fun hunread => hunread v ((hresult' phi).trans hr) i hv

/-- The walk starts at the entry, where all slots are zero. -/
theorem pending_firstPlan (he : f.layout.head? = some e) : (firstPlan slots zero f₂ new entries).Pending f []
    [(e, (slots.map (·.2)).map fun _ => zero)] := by
  have hlist : ∀ d ∈ [(e, (slots.map (·.2)).map fun _ => zero)], d = (e, (slots.map (·.2)).map fun _ => zero) :=
    fun d hd => List.mem_singleton.1 hd
  refine ⟨fun d hd => ?_, fun d hd => ?_, fun d hd => ?_, fun d hd => ?_, fun p hp => absurd hp List.not_mem_nil⟩
  · rw [hlist d hd]
    exact .entry he
  · rw [hlist d hd]
    simp [firstPlan]
  · rw [hlist d hd]
    refine .inl ⟨he, fun k hk _ => ?_⟩
    have hlt : k < slots.length := hk
    simp [firstPlan, hlt]
  · obtain rfl := Option.some.inj (he.symm.trans hd)
    exact .inr List.mem_cons_self

/-- Before the walk no block is visited. -/
theorem visited_replicate {n : Nat} (b : BlockId) : (Array.replicate n false)[b]? = some true ↔ b ∈ ([] : List BlockId) := by
  rw [Array.getElem?_replicate]
  split
  · simp
  · simp

/-- The phis of the slots of a function are placed, and the walk over its blocks has renamed the slots. -/
structure Walks (f : Function) (slots : List (InstId × ValueId)) (tree : DominatorTree) (entries : List (InstId × Nat))
    (zero : ValueId) (e : BlockId) (f₁ f₂ c : Function) : Prop where
  found : promotableSlots f = .ok slots
  dominators : DominatorTree.ofCfg f.cfg = .ok tree
  placed : (placeAllPhis tree (slots.map (·.2))).run f = (.ok entries, f₁)
  constant : (constValue 0).run f₁ = (.ok zero, f₂)
  entry : f₂.layout.head? = some e
  renamed : (renameFrom (slots.map (·.2)) entries (Array.replicate f₂.blocks.size false)
    [(e, (slots.map (·.2)).map fun _ => zero)]).run f₂ = (.ok (), c)

variable {f₁ c₃ : Function}

/-- The walk follows a plan. -/
theorem Walks.walking (h : Walks f slots tree entries zero e f₁ f₂ c₃) (hs : f.Sound) (hr : f.Regular)
    (hstrict : f.Strict) :
    ∃ (plan : SlotPlan) (new : BlockId → List InstId) (done : List InstId) (fill : BlockId → Nat → ValueId)
      (blocks : List BlockId), plan.slots = slots ∧ plan.Prepared f f₂ new entries ∧
        plan.Walking f f₂ c₃ new done fill blocks ∧ (∀ b, b ∈ blocks ↔ f.Reach b) ∧
        (plan.zero < f₂.values.size ∧ (f₂.value plan.zero).kind = .const 0) ∧ (∀ e ∈ entries, ∃ b, e.1 ∈ new b) ∧
        ∀ i, f.insts.size ≤ i → i < f₂.insts.size → i ∈ entries.map Prod.fst := by
  obtain ⟨new, first, hlaid, hfirst, hfilled, hsite, hcover⟩ :=
    laid_of_placeAllPhis hs hr h.found h.dominators h.placed h.constant
  have hprepared := hlaid.prepared hstrict
  have he := h.entry
  rw [hlaid.reshaped.layout] at he
  obtain ⟨stand, inn, done, fill, blocks, hblocks, hwalking⟩ := SlotPlan.renameFrom_spec _ _ hprepared
    (hlaid.walking hfirst hfilled) (pending_firstPlan he) visited_replicate h.renamed
  exact ⟨_, new, done, fill, blocks, rfl, hprepared.withValues stand inn, hwalking, hblocks, hlaid.zero, hsite, hcover⟩

/-- The steps of promoting the slots of a function. -/
theorem promote_eq_ok (hrun : promote.run f = (.ok stats, f')) :
    ∃ steps g slots, simplify.run f = (.ok steps, g) ∧ promotableSlots g = .ok slots ∧ stats.cfgSteps = steps ∧
      stats.promoted = slots.length ∧ (slots = [] ∧ stats.phisInserted = 0 ∧ f' = g ∨
        slots ≠ [] ∧ ∃ tree entries zero e f₁ f₂ c₃ c₄ count, Walks g slots tree entries zero e f₁ f₂ c₃ ∧
          stats.phisInserted = entries.length ∧ (slots.forM fun (i, _) => removeInst i).run c₃ = (.ok (), c₄) ∧
          (removeDeadPhis (entries.map Prod.fst)).run c₄ = (.ok count, f')) := by
  unfold promote at hrun
  obtain ⟨steps, g, hsimplify, hrun⟩ := bind_eq_ok hrun
  obtain ⟨slots, hslots, hrun⟩ := ask_bind_eq_ok hrun
  refine ⟨steps, g, slots, hsimplify, hslots, ?_⟩
  split at hrun
  · rename_i hempty
    obtain rfl := List.isEmpty_iff.1 hempty
    cases hrun
    exact ⟨rfl, rfl, .inl ⟨rfl, rfl, rfl⟩⟩
  · rename_i hsome
    obtain ⟨tree, htree, hrun⟩ := ask_bind_eq_ok hrun
    obtain ⟨entries, f₁, hplace, hrun⟩ := bind_eq_ok hrun
    obtain ⟨zero, f₂, hzero, hrun⟩ := bind_eq_ok hrun
    obtain ⟨e, hentry, hrun⟩ := ask_bind_eq_ok hrun
    have hrun := of_get_bind hrun
    obtain ⟨⟨⟩, c₃, hrename, hrun⟩ := bind_eq_ok hrun
    obtain ⟨⟨⟩, c₄, hremove, hrun⟩ := bind_eq_ok hrun
    obtain ⟨count, c₅, hdead, hrun⟩ := bind_eq_ok hrun
    cases hrun
    exact ⟨rfl, rfl, .inr ⟨fun hnil => hsome (List.isEmpty_iff.2 hnil), tree, entries, zero, e, f₁, f₂, c₃, c₄, count,
      ⟨hslots, htree, hplace, hzero, head?_of_entry hentry, hrename⟩, rfl, hremove, hdead⟩⟩

end Placed

/-- Promoting the slots of the simplified function: runs show the same but for the words of the slots, wherever those
words are, as long as the slots are kept apart from everything else. -/
theorem promote_keeps (hwf : f.WellFormed) (hrun : promote.run f = (.ok stats, f')) :
    ∃ steps g slots, simplify.run f = (.ok steps, g) ∧ promotableSlots g = .ok slots ∧
      ∀ (W : Type) (env : IrEnv W) (m : Memory) (w : W), SlotPlan.Promoted.Apart slots g env m w →
        Runs.SameRuns (Runs.observe (IrEvent.isOutside (slots.map fun e => env.slot e.1)) (f.step env)) (f.start m w)
          (Runs.observe (IrEvent.isOutside (slots.map fun e => env.slot e.1)) (f'.step env)) (f'.start m w) := by
  obtain ⟨steps, g, slots, hsimplify, hslots, -, -, hcase⟩ := promote_eq_ok hrun
  obtain ⟨⟨hs, hr, hstrict, -⟩, hmeaning⟩ := simplify_keeps hwf hsimplify
  refine ⟨steps, g, slots, hsimplify, hslots, fun W env m w hapart => ?_⟩
  have hsame := (hmeaning W env m w).observe (IrEvent.isOutside (slots.map fun e => env.slot e.1))
  rcases hcase with ⟨-, -, rfl⟩ | ⟨-, tree, entries, zero, e, f₁, f₂, c₃, c₄, count, hwalks, -, hremove, hdead⟩
  · exact hsame
  · obtain ⟨plan, new, done, fill, blocks, rfl, hp, hwalking, hblocks, hzero, -, -⟩ := hwalks.walking hs hr hstrict
    obtain ⟨new', hpromoted, -⟩ := promoted_of_walking hp hzero hwalking hblocks hremove hdead
    exact hsame.trans (hpromoted.sameRuns hs hr hstrict hapart)

end Edit

end SsaCompiler
