import SsaCompiler.Proofs.Graph.TreeOrder
import Mathlib

/-!
# The depth of the dominator tree

The dominators of a block are those of its immediate dominator and the block itself (`Exact.rank_child`). So the walk
down the tree, which adds one for each level, meets every block with the number of its strict dominators
(`Exact.mem_levels_iff`). With the order of the tree this makes the whole tree exact (`tree_exactly`), and a graph
whose blocks have an order never lacks an immediate dominator.
-/

set_option autoImplicit false

namespace SsaCompiler

/-- Every path from the entry to the second block comes through the first one, which is another block. -/
def Cfg.StrictlyDominates (g : Cfg) (a b : Nat) : Prop := g.Dominates a b ∧ a ≠ b

variable {b : Nat}

/-- Only reachable blocks dominate reachable ones. -/
theorem Cfg.Dominates.reachable {g : Cfg} {a : Nat} (h : g.Dominates a b) (hb : g.Reachable b) : g.Reachable a := by
  by_contra ha
  refine h ?_
  induction hb with
  | refl => exact .entry fun heq => ha (heq ▸ .refl)
  | tail hreach hedge ih =>
    exact .step (ih fun hfalse => h (.step hfalse hedge fun heq => ha (heq ▸ hreach.tail hedge))) hedge
      fun heq => ha (heq ▸ hreach.tail hedge)

/-- A graph with an order can be explored. -/
theorem ReversePostorder.explorable_of_ofCfg {g : Cfg} {r : ReversePostorder} (h : ofCfg g = .ok r) : g.Explorable := by
  obtain ⟨-, -, hmem, hbound, -⟩ := ofCfg_spec h
  exact fun b hb => ⟨hbound b ((hmem b).2 hb), succs_of_mem_order h ((hmem b).2 hb)⟩

namespace DominatorTree

variable {g : Cfg} {t : DominatorTree}

/-- The positions that the children of a position have. -/
def below (t : DominatorTree) (p : Nat) : List Nat := (t.children.getD p []).filterMap t.order.position?

/-- Writes that agree on what each place gets leave it there. -/
theorem getD_foldl_setIfInBounds (f : Nat → Nat) {q : Nat} : ∀ (l : List (Nat × Nat)) (entries : Array Nat),
    (∀ e ∈ l, e.2 = f e.1) → q < entries.size → q ∈ l.map Prod.fst ∨ entries.getD q 0 = f q →
    (l.foldl (fun entries (e : Nat × Nat) => entries.setIfInBounds e.1 e.2) entries).getD q 0 = f q
  | [], entries, _, _, h => h.resolve_left List.not_mem_nil
  | e :: l, entries, hl, hq, h => by
    refine getD_foldl_setIfInBounds f l _ (fun e he => hl e (List.mem_cons_of_mem _ he))
      (by rw [Array.size_setIfInBounds]; exact hq) ?_
    by_cases heq : e.1 = q
    · refine .inr ?_
      rw [← heq, Array.getD_eq_getD_getElem?, Array.getElem?_setIfInBounds, if_pos rfl, if_pos (heq ▸ hq),
        Option.getD_some, hl e List.mem_cons_self]
    · refine h.imp (fun hin => (List.mem_cons.1 hin).resolve_left (Ne.symm heq)) fun hold => ?_
      rw [Array.getD_eq_getD_getElem?, Array.getElem?_setIfInBounds, if_neg heq, ← Array.getD_eq_getD_getElem?, hold]

namespace Exact

variable (h : Exact g t)

include h

/-- The dominators of a reachable block are counted right. -/
theorem rank_eq (hb : g.Reachable b) : t.rank b = {a | g.Dominates a b}.ncard := by
  obtain ⟨-, -, hmem, -, hpos⟩ := h.order_spec
  obtain ⟨q, hq, hqb⟩ := h.exists_position hb
  have hnodup : (t.domBy.getD q (.empty 0)).toList.Nodup := List.nodup_range.filter _
  have hcount : t.rank b = {p | p ∈ (t.domBy.getD q (.empty 0)).toList}.ncard := by
    rw [← List.coe_toFinset, Set.ncard_coe_finset, List.toFinset_card_of_nodup hnodup]
    unfold rank
    rw [hq]
  rw [hcount]
  have hblock : ∀ p, p ∈ (t.domBy.getD q (.empty 0)).toList → t.blocks[p]? = some (t.blocks.getD p 0) ∧
      g.Dominates (t.blocks.getD p 0) b := by
    intro p hp
    have hin := BlockSet.mem_toList.1 hp
    have hpa : t.blocks[p]? = some (t.blocks.getD p 0) := by
      obtain ⟨a, ha⟩ : ∃ a, t.blocks[p]? = some a := ⟨_, List.getElem?_eq_getElem (h.lt_of_contains hin).1⟩
      rw [List.getD_eq_getElem?_getD, ha]
      rfl
    exact ⟨hpa, (h.contains_iff hpa hqb).1 hin⟩
  refine Set.ncard_congr (fun p _ => t.blocks.getD p 0) (fun p hp => (hblock p hp).2) (fun p p' hp hp' heq => ?_)
    fun a ha => ?_
  · exact position_inj (ofCfg_parts h.parts).1 (hblock p hp).1 (by rw [heq]; exact (hblock p' hp').1)
  · obtain ⟨p, hp, hpa⟩ := h.exists_position (Cfg.Dominates.reachable ha hb)
    refine ⟨p, BlockSet.mem_toList.2 ((h.contains_iff hpa hqb).2 ha), ?_⟩
    rw [List.getD_eq_getElem?_getD, hpa]
    rfl

/-- A reachable block has finitely many dominators. -/
theorem finite_dominators (hb : g.Reachable b) : {a | g.Dominates a b}.Finite := by
  obtain ⟨-, -, hmem, -⟩ := h.order_spec
  refine (List.finite_toSet t.blocks).subset fun a ha => ?_
  exact (hmem a).2 (Cfg.Dominates.reachable ha hb)

/-- A block has one dominator more than its immediate dominator. -/
theorem rank_child {c : Nat} (hb : g.Reachable b) (hc : c ∈ t.childrenOf b) : t.rank c = t.rank b + 1 := by
  obtain ⟨hreach, hdom, hne, hall⟩ := h.child_spec hb hc
  have hset : {a | g.Dominates a c} = insert c {a | g.Dominates a b} := by
    ext a
    constructor
    · intro ha
      by_cases hac : a = c
      · exact .inl hac
      · exact .inr (hall a (Cfg.Dominates.reachable ha hreach) ha hac)
    · rintro (rfl | ha)
      · exact .refl g a
      · exact Cfg.Dominates.trans ha hdom
  rw [h.rank_eq hreach, h.rank_eq hb, hset,
    Set.ncard_insert_of_notMem (fun hcb => hne (hdom.antisymm hcb hb)) (h.finite_dominators hb)]

omit h in
/-- The positions below the position of a block are those of its children. -/
theorem mem_below_iff {p q : Nat} (hp : t.position? b = some p) :
    q ∈ t.below p ↔ ∃ c ∈ t.childrenOf b, t.position? c = some q := by
  unfold below childrenOf
  rw [hp, List.mem_filterMap]
  rfl

/-- The walk down from a block meets the blocks that it dominates, each as deep as it has more dominators. -/
theorem mem_levels_iff {height : Nat} : ∀ {b p d : Nat}, g.Reachable b → t.position? b = some p →
    t.blocks.length ≤ height + t.rank b → ∀ q e, (q, e) ∈ levels t.below height p d ↔
      ∃ c, g.Reachable c ∧ t.position? c = some q ∧ g.Dominates b c ∧ e + t.rank b = d + t.rank c := by
  obtain ⟨-, -, hmem, -, hpos⟩ := h.order_spec
  have hself : ∀ {b p d q e : Nat}, g.Reachable b → t.position? b = some p → (q, e) = (p, d) →
      ∃ c, g.Reachable c ∧ t.position? c = some q ∧ g.Dominates b c ∧ e + t.rank b = d + t.rank c := by
    intro b p d q e hb hp heq
    cases heq
    exact ⟨b, hb, hp, .refl g b, rfl⟩
  induction height with
  | zero =>
    intro b p d hb hp hheight q e
    rw [levels, List.mem_singleton]
    refine ⟨hself hb hp, ?_⟩
    rintro ⟨c, hc, hq, hdom, hdepth⟩
    obtain rfl : b = c := by
      by_contra hne
      have hlt := h.rank_lt hb hc hdom hne
      have hle := h.rank_le c
      omega
    rw [hp] at hq
    cases hq
    rw [Nat.add_right_cancel hdepth]
  | succ height ih =>
    intro b p d hb hp hheight q e
    have hchild : ∀ c ∈ t.childrenOf b, g.Reachable c ∧ g.Dominates b c ∧ t.rank c = t.rank b + 1 := fun c hc =>
      ⟨(h.child_spec hb hc).1, (h.child_spec hb hc).2.1, h.rank_child hb hc⟩
    rw [levels, List.mem_cons, List.mem_flatMap]
    constructor
    · rintro (heq | ⟨q', hq', he⟩)
      · exact hself hb hp heq
      · obtain ⟨x, hx, hxq⟩ := (mem_below_iff hp).1 hq'
        obtain ⟨hxreach, hbx, hrank⟩ := hchild x hx
        obtain ⟨c, hc, hcq, hxc, hdepth⟩ := (ih hxreach hxq (by omega) q e).1 he
        exact ⟨c, hc, hcq, hbx.trans hxc, by omega⟩
    · rintro ⟨c, hc, hcq, hdom, hdepth⟩
      by_cases hne : b = c
      · subst hne
        rw [hp] at hcq
        cases hcq
        exact .inl (by rw [Nat.add_right_cancel hdepth])
      · obtain ⟨x, hx, hxc⟩ := h.exists_child hb hc hdom hne
        obtain ⟨hxreach, hbx, hrank⟩ := hchild x hx
        obtain ⟨q', hxq, -⟩ := h.exists_position hxreach
        exact .inr ⟨q', (mem_below_iff hp).2 ⟨x, hx, hxq⟩,
          (ih hxreach hxq (by omega) q e).2 ⟨c, hc, hcq, hxc, by omega⟩⟩

/-- Only the entry dominates the entry. -/
theorem rank_entry : t.rank g.entry = 1 := by
  rw [h.rank_eq .refl, Set.ncard_eq_one]
  refine ⟨g.entry, Set.ext fun a => ⟨fun ha => Cfg.Dominates.eq_entry ha, ?_⟩⟩
  rintro rfl
  exact .refl g _

/-- The depth of a reachable block is the number of its strict dominators. -/
theorem depth?_eq (hb : g.Reachable b) : t.depth? b = some {a | g.StrictlyDominates a b}.ncard := by
  obtain ⟨-, -, hmem, -, hpos⟩ := h.order_spec
  obtain ⟨q, hq, hqb⟩ := h.exists_position hb
  have hentry : t.position? g.entry = some 0 := (hpos _ 0).2 (order_zero (ofCfg_parts h.parts).1)
  have hlevels := @mem_levels_iff g t h t.order.order.length g.entry 0 0 .refl hentry
    (Nat.le_add_right t.blocks.length _)
  rw [h.rank_entry] at hlevels
  -- Every position is met, and only with one depth.
  have hdepth : t.depth.getD q 0 = t.rank b - 1 := by
    have hfold := getD_foldl_setIfInBounds (fun p => t.rank (t.blocks.getD p 0) - 1) (q := q)
      (levels t.below t.order.order.length 0 0) (Array.replicate t.order.order.length 0) (fun e he => ?_)
      (by rw [Array.size_replicate]; exact (List.getElem?_eq_some_iff.1 hqb).1) (.inl ?_)
    · rw [List.getD_eq_getElem?_getD, hqb] at hfold
      rw [(children_eq h.parts).2]
      exact hfold
    · obtain ⟨c, hc, hcq, -, hsum⟩ := (hlevels e.1 e.2).1 he
      rw [List.getD_eq_getElem?_getD, (hpos c e.1).1 hcq, Option.getD_some]
      omega
    · have hpositive : 0 < t.rank b := by
        rw [h.rank_eq hb]
        exact (Set.ncard_pos (h.finite_dominators hb)).2 ⟨b, .refl g b⟩
      exact List.mem_map.2 ⟨(q, t.rank b - 1), (hlevels q _).2 ⟨b, hb, hq, .of_entry g b, by omega⟩, rfl⟩
  have hstrict : {a | g.StrictlyDominates a b} = {a | g.Dominates a b} \ {b} := rfl
  unfold depth?
  rw [hq, Option.map_some, hdepth, hstrict, Set.ncard_sdiff_singleton_of_mem (Cfg.Dominates.refl g b), h.rank_eq hb]

/-- The children of a block, each counted: a reachable block but the entry is a child of its immediate dominator and of
no other block. -/
theorem count_childrenOf {d : Nat} (hb : g.Reachable b) (hd : t.idom? b = some d) (c : Nat) :
    (t.childrenOf c).count b = if c = d then 1 else 0 := by
  by_cases hc : g.Reachable c
  · obtain ⟨hnodup, hmem⟩ := h.mem_childrenOf_iff hc
    rw [hnodup.count]
    refine if_congr ((hmem b).trans ⟨fun hin => ?_, fun heq => ⟨hb, heq ▸ hd⟩⟩) rfl rfl
    exact Option.some.inj (hin.2.symm.trans hd)
  · have hnone : t.position? c = none := by
      rw [Option.eq_none_iff_forall_ne_some]
      intro p hp
      obtain ⟨-, -, hmem, -, hpos⟩ := h.order_spec
      exact hc ((hmem c).1 (List.mem_of_getElem? ((hpos c p).1 hp)))
    have hne : c ≠ d := by
      rintro rfl
      rcases h.idom?_spec hb with ⟨-, hnone⟩ | ⟨-, d, hd', hreach, -⟩
      · rw [hnone] at hd
        cases hd
      · rw [hd'] at hd
        cases hd
        exact hc hreach
    unfold childrenOf
    rw [hnone, if_neg hne]
    rfl

end Exact

/-- **The dominator tree is exact.** Where the predecessor lists fit the edges, a tree is missing only if the order of
the blocks is, so no immediate dominator is ever missing; and a graph that can be explored has a tree. In the tree, a
reachable block other than the entry has an immediate dominator, which strictly dominates it and is dominated by all
its strict dominators, and is a child of that block, once, and of no other one; the depth of a reachable block is the
number of its strict dominators; and the postorder lists the reachable blocks, each once and behind all blocks that it
strictly dominates. -/
theorem tree_exactly (hc : g.Consistent) :
    (∀ e, ofCfg g = .error e → ReversePostorder.ofCfg g = .error e) ∧ (g.Explorable → ∃ t, ofCfg g = .ok t) ∧
    ∀ t, ofCfg g = .ok t →
      (∀ b, g.Reachable b → b ≠ g.entry → ∃ d, t.idom? b = some d ∧ g.StrictlyDominates d b ∧
        (∀ a, g.StrictlyDominates a b → g.Dominates a d) ∧
        ∀ c, (t.childrenOf c).count b = if c = d then 1 else 0) ∧
      (∀ b, g.Reachable b → t.depth? b = some {a | g.StrictlyDominates a b}.ncard) ∧
      (∀ b, b ∈ t.postOrder ↔ g.Reachable b) ∧ t.postOrder.Nodup ∧
      t.postOrder.Pairwise fun x y => ¬ g.StrictlyDominates x y := by
  refine ⟨fun e he => ?_, fun hg => ?_, fun t ht => ?_⟩
  · cases hr : ReversePostorder.ofCfg g with
    | error e' =>
      unfold ofCfg at he
      rw [hr] at he
      cases he
      rfl
    | ok r =>
      obtain ⟨t, ht, -⟩ := ofCfg_total (ReversePostorder.explorable_of_ofCfg hr) hc
      rw [ht] at he
      cases he
  · obtain ⟨t, ht, -⟩ := ofCfg_total hg hc
    exact ⟨t, ht⟩
  · have h : Exact g t := ⟨ht, hc⟩
    obtain ⟨hmem, hnodup, hpairs⟩ := h.postOrder_spec
    refine ⟨fun b hb hne => ?_, fun b hb => h.depth?_eq hb, hmem, hnodup,
      hpairs.imp fun hxy hstrict => hstrict.2 (hxy hstrict.1)⟩
    rcases h.idom?_spec hb with ⟨hentry, -⟩ | ⟨-, d, hd, -, hdom, hdne, hall⟩
    · exact absurd hentry hne
    · exact ⟨d, hd, ⟨hdom, hdne⟩, fun a ha => hall a (ha.1.reachable hb) ha.1 ha.2, h.count_childrenOf hb hd⟩

/-- The last block is entered from one block of the crossed cycle only, and both of these are children of the entry. -/
theorem tree_exactly_crossedEntries : crossedEntries.Consistent ∧ ∃ t, ofCfg crossedEntries = .ok t ∧
    t.depth? 4 = some 2 ∧ t.postOrder = [4, 2, 1, 0] ∧
    {a | crossedEntries.StrictlyDominates a 4}.ncard = 2 := by
  obtain ⟨-, htotal, hexact⟩ := tree_exactly consistent_crossedEntries
  obtain ⟨t, ht⟩ := htotal explorable_crossedEntries
  obtain ⟨-, hdepth, hpost, -⟩ := hexact t ht
  have hvalue : (ofCfg crossedEntries).map (fun t => (t.depth? 4, t.postOrder)) = .ok (some 2, [4, 2, 1, 0]) := by cbv
  rw [ht] at hvalue
  obtain ⟨hfour, hlist⟩ := Prod.mk.inj (Except.ok.inj hvalue)
  refine ⟨consistent_crossedEntries, t, ht, hfour, hlist, ?_⟩
  exact Option.some.inj ((hdepth 4 ((hpost 4).1 (by rw [hlist]; decide))).symm.trans hfour)

end DominatorTree

end SsaCompiler
