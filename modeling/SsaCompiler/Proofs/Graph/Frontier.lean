import SsaCompiler.Proofs.Graph.Convergence

/-!
# Dominance frontiers

The immediate dominator of a position is a strict dominator of it that all its strict dominators dominate, so the
walk from a position to its immediate dominator and on comes through all its dominators. The frontiers are exact
(`mem_frontierOf_iff`): a block is in the frontier of another one iff the latter dominates a predecessor of it, but
does not strictly dominate the block itself.
-/

set_option autoImplicit false

namespace SsaCompiler

namespace DominatorTree

variable {g : Cfg} {t : DominatorTree}

/-- What the sets of a tree say of positions. -/
structure Exact (g : Cfg) (t : DominatorTree) : Prop where
  parts : ofCfg g = .ok t
  consistent : g.Consistent

namespace Exact

variable (h : Exact g t)

include h

/-- The sets of the tree are exact. -/
theorem isExact : Sized t.order.order.length t.domBy ∧ IsExact g t.order t.domBy :=
  settle_exact (ofCfg_parts h.parts).1 h.consistent (ofCfg_parts h.parts).2.1

variable {b q : Nat}

/-- Positions in the sets are those of dominators. -/
theorem contains_iff {p a : Nat} (hp : t.order.order[p]? = some a) (hq : t.order.order[q]? = some b) :
    (t.domBy.getD q (.empty 0)).contains p = true ↔ g.Dominates a b := h.isExact.2.contains_iff h.isExact.1 hp hq

/-- The sets hold positions. -/
theorem lt_of_contains {p : Nat} (hin : (t.domBy.getD q (.empty 0)).contains p = true) :
    p < t.order.order.length ∧ q < t.order.order.length := h.isExact.1.lt_of_contains hin

/-- The listed immediate dominators: the entry has none, every other position has the nearest one. -/
theorem idom_eq (hq : t.order.order[q]? = some b) :
    (q = 0 ∧ t.idom.getD q none = none) ∨ ∃ d, t.idom.getD q none = some d ∧ nearest? t.domBy q = some d := by
  obtain ⟨-, -, himm, -⟩ := ofCfg_parts h.parts
  unfold immediate at himm
  obtain ⟨found, hfound, hlast⟩ := Outcome.bind_eq_ok.1 himm
  have hidom : t.idom = found.toArray := (Except.ok.inj hlast).symm
  have hlist := Outcome.mapM_of_answers (fun e : Nat × Nat => if e.2 = 0 then none else nearest? t.domBy e.2)
    (fun e d hd => by
      dsimp only at hd ⊢
      split at hd
      · rename_i h0
        cases hd
        rw [if_pos h0]
      · rename_i h0
        rw [if_neg h0]
        split at hd
        · rename_i d' hd'
          cases hd
          exact hd'.symm
        · cases hd) hfound
  have hget : t.idom.getD q none = if q = 0 then none else nearest? t.domBy q := by
    rw [hidom, Array.getD_eq_getD_getElem?, List.getElem?_toArray, hlist, List.getElem?_map, List.getElem?_zipIdx, hq]
    simp only [Option.map_some, Nat.zero_add, Option.getD_some]
  by_cases h0 : q = 0
  · exact .inl ⟨h0, by rw [hget, if_pos h0]⟩
  · rw [if_neg h0] at hget
    obtain ⟨d?, -, hask⟩ := Outcome.exists_of_mapM hfound (b, q) (List.mem_zipIdx_iff_getElem?.2 hq)
    dsimp only at hask
    rw [if_neg h0] at hask
    split at hask
    · rename_i d hd
      exact .inr ⟨d, hget.trans hd, hd⟩
    · cases hask

/-- The nearest dominator strictly dominates its position, and all strict dominators dominate it. -/
theorem nearest?_spec {d : Nat} (hq : t.order.order[q]? = some b) (hd : nearest? t.domBy q = some d) :
    ∃ c, t.order.order[d]? = some c ∧ g.Dominates c b ∧ c ≠ b ∧ ∀ a, g.Reachable a → g.Dominates a b → a ≠ b →
      g.Dominates a c := by
  obtain ⟨hr, -, -, -⟩ := ofCfg_parts h.parts
  obtain ⟨-, -, hmem, -, hplace⟩ := ReversePostorder.ofCfg_spec hr
  unfold nearest? at hd
  dsimp only at hd
  have hstrict := List.mem_of_find?_eq_some hd
  have hnone := List.find?_some hd
  rw [List.mem_filter, BlockSet.mem_toList, bne_iff_ne] at hstrict
  have hlt := (h.lt_of_contains hstrict.1).1
  have hdc : t.order.order[d]? = some t.order.order[d] := List.getElem?_eq_getElem hlt
  have hdom := (h.contains_iff hdc hq).1 hstrict.1
  refine ⟨_, hdc, hdom, fun heq => hstrict.2 (position_inj hr (heq ▸ hdc) hq), fun a hreach ha hab => ?_⟩
  obtain ⟨p, hp⟩ := List.getElem?_of_mem ((hmem a).2 hreach)
  have hpq : p ≠ q := by
    rintro rfl
    exact hab (Option.some.inj (hp.symm.trans hq))
  have hin : p ∈ (t.domBy.getD q (.empty 0)).toList.filter (· != q) :=
    List.mem_filter.2 ⟨BlockSet.mem_toList.2 ((h.contains_iff hp hq).2 ha), bne_iff_ne.2 hpq⟩
  have htest := List.all_eq_true.1 hnone p hin
  rw [Bool.or_eq_true, beq_iff_eq, Bool.not_eq_true'] at htest
  rcases htest with rfl | hnot
  · rw [hdc] at hp
    rw [Option.some.inj hp]
    exact .refl g a
  · refine (hdom.total ha ((hmem b).1 (List.mem_of_getElem? hq))).resolve_left fun hda => ?_
    rw [(h.contains_iff hdc hp).2 hda] at hnot
    cases hnot

/-- How many positions dominate a position. -/
theorem length_lt_of_nearest? {d : Nat} (hq : t.order.order[q]? = some b) (hd : nearest? t.domBy q = some d) :
    (t.domBy.getD d (.empty 0)).toList.length < (t.domBy.getD q (.empty 0)).toList.length := by
  obtain ⟨c, hc, hdom, hne, -⟩ := h.nearest?_spec hq hd
  exact h.isExact.2.length_lt h.isExact.1 (ofCfg_parts h.parts).1 hc hq hdom hne

end Exact

/-! ## The walk up the tree -/

variable {block : Nat}

variable {idom : Array (Option Nat)} {domBy : Array BlockSet} {blocks : List Nat} {fuel pos : Nat}

/-- A block that is added once to a list. -/
theorem mem_add {y : Nat} :
    (y ∈ if blocks.contains block then blocks else blocks ++ [block]) ↔ y ∈ blocks ∨ y = block := by
  split
  · rename_i hin
    refine ⟨.inl, fun hy => hy.elim id ?_⟩
    rintro rfl
    exact List.contains_iff_mem.1 hin
  · simp

/-- Such a block is listed once. -/
theorem nodup_add (h : blocks.Nodup) : (if blocks.contains block then blocks else blocks ++ [block]).Nodup := by
  split
  · exact h
  · rename_i hnot
    refine List.nodup_append.2 ⟨h, List.nodup_singleton _, fun a ha b hb => ?_⟩
    rw [List.mem_singleton.1 hb]
    rintro rfl
    exact hnot (List.contains_iff_mem.2 ha)

/-- The lists after one of them has got a block. -/
theorem getD_modify {frontier : Array (List Nat)} {cur x : Nat} (hcur : cur < frontier.size)
    (change : List Nat → List Nat) :
    (frontier.modify cur change).getD x [] = if x = cur then change (frontier.getD cur []) else frontier.getD x [] := by
  rw [Array.getD_eq_getD_getElem?, Array.getElem?_modify, Array.getD_eq_getD_getElem?, Array.getD_eq_getD_getElem?]
  by_cases hx : x = cur
  · subst hx
    simp [hcur]
  · simp [hx, Ne.symm hx]

/-- The walk from a position adds the block to the lists of all dominators of the position that do not strictly
dominate the block. -/
theorem Exact.mem_climb (h : Exact g t) (hblock : t.order.order[pos]? = some block) :
    ∀ {cur c : Nat} {frontier : Array (List Nat)}, t.order.order[cur]? = some c →
      frontier.size = t.order.order.length → (t.domBy.getD cur (.empty 0)).toList.length ≤ fuel →
      (climb t.domBy t.idom block pos fuel (some cur) frontier).size = frontier.size ∧ ∀ x a,
        t.order.order[x]? = some a → ∀ y,
        (y ∈ (climb t.domBy t.idom block pos fuel (some cur) frontier).getD x [] ↔
          y ∈ frontier.getD x [] ∨ (y = block ∧ g.Dominates a c ∧ (g.Dominates a block → a = block))) := by
  obtain ⟨hr, -, -, -⟩ := ofCfg_parts h.parts
  obtain ⟨-, hhead, hmem, -, hplace⟩ := ReversePostorder.ofCfg_spec hr
  have hfirst : t.order.order[0]? = some g.entry := by rw [← List.head?_eq_getElem?, hhead]
  induction fuel with
  | zero =>
    intro cur c frontier hcur _ hfuel
    have hself := BlockSet.mem_toList.2 ((h.contains_iff hcur hcur).2 (.refl g c))
    exact absurd (List.length_pos_of_mem hself) (Nat.not_lt.2 hfuel)
  | succ fuel ih =>
    intro cur c frontier hcur hsize hfuel
    have hreachc : g.Reachable c := (hmem c).1 (List.mem_of_getElem? hcur)
    rw [climb]
    by_cases hstop : cur ≠ pos ∧ (t.domBy.getD pos (.empty 0)).contains cur = true
    · -- What dominates a strict dominator of the block strictly dominates the block.
      rw [if_pos (by simpa using hstop)]
      have hcb := (h.contains_iff hcur hblock).1 hstop.2
      refine ⟨rfl, fun x a _ y => ⟨.inl, fun hy => hy.resolve_right ?_⟩⟩
      rintro ⟨-, hac, hnot⟩
      obtain rfl := hnot (hac.trans hcb)
      exact hstop.1 (position_inj hr hcur (hcb.antisymm hac hreachc ▸ hblock))
    · rw [if_neg (by simpa using hstop)]
      have hcurlt : cur < frontier.size := by
        rw [hsize]
        exact (List.getElem?_eq_some_iff.1 hcur).1
      have hnot : g.Dominates c block → c = block := by
        intro hcb
        by_contra hne
        refine hstop ⟨?_, (h.contains_iff hcur hblock).2 hcb⟩
        rintro rfl
        exact hne (Option.some.inj (hcur.symm.trans hblock))
      have hgrown : ∀ x a, t.order.order[x]? = some a → ∀ y, (y ∈ (frontier.modify cur fun blocks =>
          if blocks.contains block then blocks else blocks ++ [block]).getD x [] ↔
            y ∈ frontier.getD x [] ∨ (y = block ∧ a = c)) := by
        intro x a hx y
        rw [getD_modify hcurlt]
        by_cases hxc : x = cur
        · subst hxc
          rw [if_pos rfl, mem_add, Option.some.inj (hx.symm.trans hcur)]
          exact or_congr Iff.rfl (by simp)
        · rw [if_neg hxc]
          refine ⟨.inl, fun hy => hy.resolve_right ?_⟩
          rintro ⟨-, rfl⟩
          exact hxc (position_inj hr hx hcur)
      rcases h.idom_eq hcur with ⟨rfl, hidom⟩ | ⟨d, hidom, hnear⟩
      · -- Only the entry dominates the entry.
        rw [hidom, show climb t.domBy t.idom block pos fuel none _ = _ by cases fuel <;> rfl]
        obtain rfl : g.entry = c := Option.some.inj (hfirst.symm.trans hcur)
        refine ⟨Array.size_modify, fun x a hx y => (hgrown x a hx y).trans (or_congr Iff.rfl ?_)⟩
        refine and_congr Iff.rfl ⟨?_, fun hdom => hdom.1.eq_entry⟩
        rintro rfl
        exact ⟨.refl g _, hnot⟩
      · obtain ⟨e, he, hdom, hne, hnearest⟩ := h.nearest?_spec hcur hnear
        have hless := h.length_lt_of_nearest? hcur hnear
        rw [hidom]
        generalize hgrow : frontier.modify cur (fun blocks =>
          if blocks.contains block then blocks else blocks ++ [block]) = grown at hgrown ⊢
        have hsized : grown.size = frontier.size := by rw [← hgrow, Array.size_modify]
        obtain ⟨hsize', hrest⟩ := ih he (hsized.trans hsize) (by omega)
        refine ⟨hsize'.trans hsized, fun x a hx y => ?_⟩
        have hreacha : g.Reachable a := (hmem a).1 (List.mem_of_getElem? hx)
        rw [hrest x a hx y, hgrown x a hx y, or_assoc]
        refine or_congr Iff.rfl ⟨?_, ?_⟩
        · rintro (⟨hy, rfl⟩ | ⟨hy, hae, hab⟩)
          · exact ⟨hy, .refl g a, hnot⟩
          · exact ⟨hy, hae.trans hdom, hab⟩
        · rintro ⟨hy, hac, hab⟩
          by_cases heq : a = c
          · exact .inl ⟨hy, heq⟩
          · exact .inr ⟨hy, hnearest a hreacha hac heq, hab⟩

/-- The walk lists no block twice. -/
theorem nodup_climb : ∀ {cur : Option Nat} {frontier : Array (List Nat)}, (∀ x, (frontier.getD x []).Nodup) →
      ∀ x, ((climb domBy idom block pos fuel cur frontier).getD x []).Nodup := by
  induction fuel with
  | zero => exact fun hnodup => hnodup
  | succ fuel ih =>
    intro cur frontier hnodup
    cases cur with
    | none => exact hnodup
    | some cur =>
      rw [climb]
      split
      · exact hnodup
      · refine ih fun x => ?_
        by_cases hcur : cur < frontier.size
        · rw [getD_modify hcur]
          by_cases hx : x = cur
          · rw [if_pos hx]
            exact nodup_add (hnodup cur)
          · rw [if_neg hx]
            exact hnodup x
        · rw [Array.getD_eq_getD_getElem?, Array.getElem?_modify]
          have hnodup' := hnodup x
          rw [Array.getD_eq_getD_getElem?] at hnodup'
          split
          · rename_i hx
            subst hx
            rw [Array.getElem?_eq_none (Nat.le_of_not_lt hcur)]
            exact List.nodup_nil
          · exact hnodup'

/-- The lists after the walks from one block, one for each successor. -/
def climbs (t : DominatorTree) (source : Nat) (succs : List Nat) (frontier : Array (List Nat)) : Array (List Nat) :=
  succs.foldl (fun frontier target => match t.order.position? target with
    | some pos => climb t.domBy t.idom target pos t.order.order.length (some source) frontier
    | none => frontier) frontier

theorem climbs_cons (t : DominatorTree) (source target : Nat) (succs : List Nat) (frontier : Array (List Nat)) :
    t.climbs source (target :: succs) frontier = t.climbs source succs (match t.order.position? target with
      | some pos => climb t.domBy t.idom target pos t.order.order.length (some source) frontier
      | none => frontier) := rfl

/-- The lists after the walks from a block with a position. -/
def spread (g : Cfg) (t : DominatorTree) (frontier : Array (List Nat)) (e : Nat × Nat) : Outcome (Array (List Nat)) := do
  let succs ← g.succs e.1
  return t.climbs e.2 succs frontier

/-- What the walks from one block add to the lists. -/
theorem Exact.mem_foldl_climb (h : Exact g t) {source c : Nat} (hsource : t.order.order[source]? = some c)
    (succs : List Nat) : ∀ {frontier : Array (List Nat)}, frontier.size = t.order.order.length →
      (∀ x, (frontier.getD x []).Nodup) →
      (t.climbs source succs frontier).size = frontier.size ∧ (∀ x, ((t.climbs source succs frontier).getD x []).Nodup) ∧
      ∀ x a, t.order.order[x]? = some a → ∀ y, (y ∈ (t.climbs source succs frontier).getD x [] ↔ y ∈ frontier.getD x [] ∨
          (y ∈ succs ∧ g.Reachable y ∧ g.Dominates a c ∧ (g.Dominates a y → a = y))) := by
  obtain ⟨hr, -, -, -⟩ := ofCfg_parts h.parts
  obtain ⟨-, -, hmem, -, hplace⟩ := ReversePostorder.ofCfg_spec hr
  induction succs with
  | nil => exact fun _ hnodup => ⟨rfl, hnodup, fun x a _ y => by simp [climbs]⟩
  | cons target succs ih =>
    intro frontier hsize hnodup
    have hfuel : (t.domBy.getD source (.empty 0)).toList.length ≤ t.order.order.length := by
      have hsub : ∀ p ∈ (t.domBy.getD source (.empty 0)).toList, p ∈ List.range t.order.order.length := fun p hp =>
        List.mem_range.2 (h.lt_of_contains (BlockSet.mem_toList.1 hp)).1
      have hle := (List.Nodup.subperm (List.nodup_range.filter _) hsub).length_le
      rwa [List.length_range] at hle
    rw [climbs_cons]
    cases hpos : t.order.position? target with
    | none =>
      obtain ⟨hsize', hnodup', hgrown⟩ := ih hsize hnodup
      refine ⟨hsize', hnodup', fun x a hx y => (hgrown x a hx y).trans (or_congr Iff.rfl ?_)⟩
      rw [List.mem_cons]
      refine ⟨fun hy => ⟨.inr hy.1, hy.2⟩, fun hy => ⟨hy.1.resolve_left ?_, hy.2⟩⟩
      rintro rfl
      obtain ⟨p, hp⟩ := List.getElem?_of_mem ((hmem y).2 hy.2.1)
      rw [(hplace y p).2 hp] at hpos
      cases hpos
    | some pos =>
      have htarget := (hplace target pos).1 hpos
      obtain ⟨hsize₁, hgrown₁⟩ := h.mem_climb htarget hsource hsize hfuel
      obtain ⟨hsize', hnodup', hgrown⟩ := ih (hsize₁.trans hsize) (nodup_climb hnodup)
      refine ⟨hsize'.trans hsize₁, hnodup', fun x a hx y => ?_⟩
      rw [hgrown x a hx y, hgrown₁ x a hx y, or_assoc, List.mem_cons]
      refine or_congr Iff.rfl ⟨?_, ?_⟩
      · rintro (⟨rfl, hdom⟩ | ⟨hy, hrest⟩)
        · exact ⟨.inl rfl, (hmem y).1 (List.mem_of_getElem? htarget), hdom⟩
        · exact ⟨.inr hy, hrest⟩
      · rintro ⟨rfl | hy, hreach, hdom⟩
        · exact .inl ⟨rfl, hdom⟩
        · exact .inr ⟨hy, hreach, hdom⟩

/-- A block is in the frontier of another one iff that dominates a predecessor of it, but not strictly the block. No
frontier lists a block twice. -/
theorem Exact.mem_frontierOf_iff (h : Exact g t) (a : Nat) : (t.frontierOf a).Nodup ∧ ∀ y,
    (y ∈ t.frontierOf a ↔ g.Reachable a ∧ ∃ p, g.Reachable p ∧ g.Edge p y ∧ g.Dominates a p ∧
      (g.Dominates a y → a = y)) := by
  obtain ⟨hr, -, -, hfrontiers⟩ := ofCfg_parts h.parts
  obtain ⟨-, -, hmem, -, hplace⟩ := ReversePostorder.ofCfg_spec hr
  -- What the walks from a part of the blocks add to the lists.
  have hfold : ∀ (l : List (Nat × Nat)) (frontier final : Array (List Nat)),
      (∀ e ∈ l, t.order.order[e.2]? = some e.1) → frontier.size = t.order.order.length →
      (∀ x, (frontier.getD x []).Nodup) →
      l.foldlM (spread g t) frontier = .ok final →
      (∀ x, (final.getD x []).Nodup) ∧ ∀ x b, t.order.order[x]? = some b → ∀ y,
        (y ∈ final.getD x [] ↔ y ∈ frontier.getD x [] ∨
          ∃ e ∈ l, g.Edge e.1 y ∧ g.Reachable y ∧ g.Dominates b e.1 ∧ (g.Dominates b y → b = y)) := by
    intro l
    induction l with
    | nil =>
      intro frontier final _ _ hnodup hrun
      cases hrun
      exact ⟨hnodup, fun x b _ y => by simp⟩
    | cons e l ih =>
      intro frontier final hl hsize hnodup hrun
      rw [List.foldlM_cons] at hrun
      obtain ⟨grown, hgrow, hrest⟩ := Outcome.bind_eq_ok.1 hrun
      obtain ⟨succs, hsuccs, hpure⟩ := Outcome.bind_eq_ok.1 hgrow
      cases hpure
      obtain ⟨hsize₁, hnodup₁, hgrown⟩ := h.mem_foldl_climb (hl e List.mem_cons_self) succs hsize hnodup
      obtain ⟨hnodup', hfinal⟩ := ih _ final (fun d hd => hl d (List.mem_cons_of_mem _ hd)) (hsize₁.trans hsize)
        hnodup₁ hrest
      refine ⟨hnodup', fun x b hx y => ?_⟩
      rw [hfinal x b hx y, hgrown x b hx y, or_assoc]
      simp only [List.mem_cons, exists_eq_or_imp]
      refine or_congr Iff.rfl (or_congr ⟨?_, ?_⟩ Iff.rfl)
      · rintro ⟨hy, hrest⟩
        exact ⟨⟨succs, hsuccs, hy⟩, hrest⟩
      · rintro ⟨⟨succs', hsuccs', hy⟩, hrest⟩
        rw [hsuccs] at hsuccs'
        cases hsuccs'
        exact ⟨hy, hrest⟩
  have hblank : ∀ x, (Array.replicate t.order.order.length ([] : List Nat)).getD x [] = [] := by
    intro x
    rw [Array.getD_eq_getD_getElem?, Array.getElem?_replicate]
    split <;> rfl
  obtain ⟨hnodup, hfinal⟩ := hfold t.order.order.zipIdx _ _ (fun e he => List.mem_zipIdx_iff_getElem?.1 he)
    Array.size_replicate (fun x => by rw [hblank]; exact List.nodup_nil) hfrontiers
  unfold frontierOf
  change (match t.order.position? a with
    | some p => t.frontier.getD p []
    | none => []).Nodup ∧ ∀ y, (y ∈ match t.order.position? a with
    | some p => t.frontier.getD p []
    | none => []) ↔ _
  cases hpos : t.order.position? a with
  | none =>
    refine ⟨List.nodup_nil, fun y => ⟨fun hy => absurd hy List.not_mem_nil, ?_⟩⟩
    rintro ⟨hreach, -⟩
    obtain ⟨p, hp⟩ := List.getElem?_of_mem ((hmem a).2 hreach)
    rw [(hplace a p).2 hp] at hpos
    cases hpos
  | some p =>
    have hp := (hplace a p).1 hpos
    refine ⟨hnodup p, fun y => ?_⟩
    change y ∈ t.frontier.getD p [] ↔ _
    rw [hfinal p a hp y, hblank]
    simp only [List.not_mem_nil, false_or]
    constructor
    · rintro ⟨e, he, hedge, -, hdom⟩
      exact ⟨(hmem a).1 (List.mem_of_getElem? hp), e.1,
        (hmem e.1).1 (List.mem_of_getElem? (List.mem_zipIdx_iff_getElem?.1 he)), hedge, hdom⟩
    · rintro ⟨-, c, hc, hedge, hdom⟩
      obtain ⟨q, hq⟩ := List.getElem?_of_mem ((hmem c).2 hc)
      exact ⟨(c, q), List.mem_zipIdx_iff_getElem?.2 hq, hedge, hc.tail hedge, hdom⟩

/-- **Dominance frontiers are exact.** A graph whose reachable blocks have known successors and predecessor lists that
agree with them has a dominator tree. A block is in the frontier of another one if and only if both are reachable, the
latter dominates a reachable predecessor of it, and does not strictly dominate the block itself. No frontier lists a
block twice. -/
theorem frontiers_exactly (hg : g.Explorable) (hc : g.Consistent) : ∃ t, ofCfg g = .ok t ∧
    ∀ x, (t.frontierOf x).Nodup ∧ ∀ b, b ∈ t.frontierOf x ↔
      g.Reachable x ∧ g.Reachable b ∧ (∃ p ∈ g.preds b, g.Reachable p ∧ g.Dominates x p) ∧
        ¬ (x ≠ b ∧ g.Dominates x b) := by
  obtain ⟨t, ht, -⟩ := ofCfg_total hg hc
  refine ⟨t, ht, fun x => ?_⟩
  obtain ⟨hnodup, hmem⟩ := Exact.mem_frontierOf_iff ⟨ht, hc⟩ x
  refine ⟨hnodup, fun b => (hmem b).trans ?_⟩
  constructor
  · rintro ⟨hx, p, hp, hedge, hdom, hstrict⟩
    have hb : g.Reachable b := hp.tail hedge
    exact ⟨hx, hb, ⟨p, (hc p b hp hb).2 hedge, hp, hdom⟩, fun ⟨hne, hxb⟩ => hne (hstrict hxb)⟩
  · rintro ⟨hx, hb, ⟨p, hpreds, hp, hdom⟩, hstrict⟩
    exact ⟨hx, p, hp, (hc p b hp hb).1 hpreds, hdom, fun hxb => by_contra fun hne => hstrict ⟨hne, hxb⟩⟩

/-- The entry is in its own frontier, as an edge leads back to it. So is a block with a loop of its own, and the other
block that enters the cycle is in its frontier too. -/
theorem frontiers_exactly_crossedEntries : crossedEntries.Explorable ∧ crossedEntries.Consistent ∧
    ∃ t, ofCfg crossedEntries = .ok t ∧ 0 ∈ t.frontierOf 0 ∧ 1 ∈ t.frontierOf 1 ∧ 2 ∈ t.frontierOf 1 := by
  obtain ⟨t, ht, hfrontiers⟩ := frontiers_exactly explorable_crossedEntries consistent_crossedEntries
  have hedge : ∀ {a b succs}, crossedEntries.succs a = .ok succs → b ∈ succs → crossedEntries.Edge a b :=
    fun hsuccs hb => ⟨_, hsuccs, hb⟩
  have h01 : crossedEntries.Edge 0 1 := hedge rfl (by decide)
  have h02 : crossedEntries.Edge 0 2 := hedge rfl (by decide)
  have h1 : crossedEntries.Reachable 1 := .single h01
  have h2 : crossedEntries.Reachable 2 := .single h02
  have h4 : crossedEntries.Reachable 4 := h2.tail (hedge rfl List.mem_cons_self)
  -- The entry leads to the other block directly.
  have h12 : ¬ crossedEntries.Dominates 1 2 := not_not.2 (.step (.entry (by decide)) h02 (by decide))
  refine ⟨explorable_crossedEntries, consistent_crossedEntries, t, ht, ?_, ?_, ?_⟩
  · exact ((hfrontiers 0).2 0).2 ⟨.refl, .refl, ⟨4, by decide, h4, .of_entry _ 4⟩, fun h => h.1 rfl⟩
  · exact ((hfrontiers 1).2 1).2 ⟨h1, h1, ⟨1, by decide, h1, .refl _ 1⟩, fun h => h.1 rfl⟩
  · exact ((hfrontiers 1).2 2).2 ⟨h1, h2, ⟨1, by decide, h1, .refl _ 1⟩, fun h => h12 h.2⟩

theorem mem_climb_cases : ∀ {cur : Option Nat} {frontier : Array (List Nat)} {x y : Nat},
      y ∈ (climb domBy idom block pos fuel cur frontier).getD x [] → y ∈ frontier.getD x [] ∨ y = block := by
  induction fuel with
  | zero => exact fun hy => .inl hy
  | succ fuel ih =>
    intro cur frontier x y hy
    cases cur with
    | none => exact .inl hy
    | some cur =>
      rw [climb] at hy
      split at hy
      · exact .inl hy
      · refine (ih hy).elim (fun hin => ?_) .inr
        rw [Array.getD_eq_getD_getElem?, Array.getElem?_modify] at hin
        rw [Array.getD_eq_getD_getElem?]
        split at hin
        · rename_i hx
          subst hx
          cases hlist : frontier[cur]? with
          | none =>
            rw [hlist] at hin
            exact absurd hin List.not_mem_nil
          | some blocks =>
            rw [hlist] at hin
            exact mem_add.1 hin
        · exact .inl hin

/-- The blocks of a frontier are blocks of the order, whatever the predecessor lists hold. -/
theorem mem_order_of_mem_frontierOf (h : ofCfg g = .ok t) {x y : Nat} (hy : y ∈ t.frontierOf x) : y ∈ t.order.order := by
  obtain ⟨hr, -, -, hfrontiers⟩ := ofCfg_parts h
  obtain ⟨-, -, -, -, hplace⟩ := ReversePostorder.ofCfg_spec hr
  have hsuccs : ∀ (succs : List Nat) (source : Nat) (frontier : Array (List Nat)),
      (∀ p, ∀ y ∈ frontier.getD p [], y ∈ t.order.order) → ∀ p,
      ∀ y ∈ (t.climbs source succs frontier).getD p [], y ∈ t.order.order := by
    intro succs source
    induction succs with
    | nil => exact fun _ hold => hold
    | cons target succs ih =>
      intro frontier hold
      rw [climbs_cons]
      refine ih _ fun p y hy => ?_
      split at hy
      · rename_i pos hpos
        rcases mem_climb_cases hy with hin | rfl
        · exact hold p y hin
        · exact List.mem_of_getElem? ((hplace y pos).1 hpos)
      · exact hold p y hy
  have hall : ∀ (l : List (Nat × Nat)) (frontier final : Array (List Nat)),
      (∀ p, ∀ y ∈ frontier.getD p [], y ∈ t.order.order) →
      l.foldlM (spread g t) frontier = .ok final →
      ∀ p, ∀ y ∈ final.getD p [], y ∈ t.order.order := by
    intro l
    induction l with
    | nil =>
      intro frontier final hold hrun
      cases hrun
      exact hold
    | cons e l ih =>
      intro frontier final hold hrun
      rw [List.foldlM_cons] at hrun
      obtain ⟨grown, hgrow, hrest⟩ := Outcome.bind_eq_ok.1 hrun
      obtain ⟨succs, -, hpure⟩ := Outcome.bind_eq_ok.1 hgrow
      cases hpure
      exact ih _ final (hsuccs succs e.2 frontier hold) hrest
  have hblank : ∀ p, ∀ y ∈ (Array.replicate t.order.order.length ([] : List Nat)).getD p [], y ∈ t.order.order := by
    intro p y hin
    rw [Array.getD_eq_getD_getElem?, Array.getElem?_replicate] at hin
    split at hin <;> cases hin
  unfold frontierOf at hy
  split at hy
  · exact hall _ _ _ hblank hfrontiers _ y hy
  · cases hy

end DominatorTree

end SsaCompiler
