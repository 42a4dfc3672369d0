import SsaCompiler.Proofs.Graph.Frontier

/-!
# The order of the dominator tree

Every reachable block but the entry is a child of its immediate dominator, the strict dominator that all its strict
dominators dominate (`Exact.idom?_spec`). So the blocks below a block are those that it dominates, and the postorder of
the tree lists every reachable block once, behind all blocks that it strictly dominates (`Exact.postOrder_spec`).
-/

set_option autoImplicit false

namespace SsaCompiler

namespace DominatorTree

variable {g : Cfg} {t : DominatorTree}

/-- How many positions dominate a block. -/
def rank (t : DominatorTree) (b : Nat) : Nat :=
  match t.position? b with
  | some p => (t.domBy.getD p (.empty 0)).toList.length
  | none => 0

/-- A missing entry reads as an empty one. -/
theorem getD_none_eq_join (entries : Array (Option Nat)) (p : Nat) : entries.getD p none = entries[p]?.join := by
  rw [Array.getD_eq_getD_getElem?]
  cases entries[p]? <;> rfl

/-- The children of a position are the blocks with that immediate dominator, in order. -/
theorem getD_childLists (order : List Nat) (idom : Array (Option Nat)) {d : Nat} (hd : d < order.length) :
    (childLists order idom).getD d [] =
      (order.zipIdx.filter fun e => idom[e.2]?.join == some d).map Prod.fst := by
  have hfold : ∀ (l : List (Nat × Nat)) (lists : Array (List Nat)), d < lists.size →
      (l.foldl (fun lists (e : Nat × Nat) => match idom[e.2]?.join with
        | some d => lists.modify d (· ++ [e.1])
        | none => lists) lists).getD d [] =
        lists.getD d [] ++ (l.filter fun e => idom[e.2]?.join == some d).map Prod.fst := by
    intro l
    induction l with
    | nil => exact fun lists _ => (List.append_nil _).symm
    | cons e l ih =>
      intro lists hsize
      rw [List.foldl_cons, List.filter_cons]
      cases hidom : idom[e.2]?.join with
      | none => exact ih lists hsize
      | some p =>
        dsimp only
        rw [ih _ (by rw [Array.size_modify]; exact hsize)]
        by_cases hp : p = d
        · subst hp
          rw [getD_modify hsize, if_pos rfl, if_pos (beq_self_eq_true _), List.map_cons, List.append_assoc]
          rfl
        · rw [if_neg (by simpa using hp), Array.getD_eq_getD_getElem?, Array.getElem?_modify, if_neg hp,
            Array.getD_eq_getD_getElem?]
  have hstart := hfold order.zipIdx (Array.replicate order.length []) (by rw [Array.size_replicate]; exact hd)
  refine hstart.trans ?_
  rw [Array.getD_eq_getD_getElem?, Array.getElem?_replicate, if_pos hd]
  rfl

/-- The children of a tree come from its immediate dominators, and the depths from a walk down the tree. -/
theorem children_eq (h : ofCfg g = .ok t) : t.children = childLists t.order.order t.idom ∧
    t.depth = (levels (fun p => (t.children.getD p []).filterMap t.order.position?) t.order.order.length 0 0).foldl
      (fun depth (e : Nat × Nat) => depth.setIfInBounds e.1 e.2) (Array.replicate t.order.order.length 0) := by
  unfold ofCfg at h
  obtain ⟨r, hr, h⟩ := Outcome.bind_eq_ok.1 h
  dsimp only at h
  split at h
  · cases h
  · obtain ⟨idom, hidom, h⟩ := Outcome.bind_eq_ok.1 h
    obtain ⟨frontier, hfrontier, h⟩ := Outcome.bind_eq_ok.1 h
    cases h
    exact ⟨rfl, rfl⟩

namespace Exact

variable (h : Exact g t)

include h

/-- What the order of the tree holds. -/
theorem order_spec : t.blocks.Nodup ∧ t.root? = some g.entry ∧ (∀ b, b ∈ t.blocks ↔ g.Reachable b) ∧
    (∀ b ∈ t.blocks, b < g.capacity) ∧ ∀ b p, t.position? b = some p ↔ t.blocks[p]? = some b :=
  ReversePostorder.ofCfg_spec (ofCfg_parts h.parts).1

/-- The blocks that take part in the tree are the reachable ones. -/
theorem isReachable_iff (b : Nat) : t.isReachable b = true ↔ g.Reachable b :=
  ReversePostorder.isReachable_iff (ofCfg_parts h.parts).1 b

variable {b : Nat}

/-- A reachable block has a position. -/
theorem exists_position (hb : g.Reachable b) : ∃ p, t.position? b = some p ∧ t.blocks[p]? = some b := by
  obtain ⟨-, -, hmem, -, hpos⟩ := h.order_spec
  obtain ⟨p, hp⟩ := List.getElem?_of_mem ((hmem b).2 hb)
  exact ⟨p, (hpos b p).2 hp, hp⟩

/-- A block has more dominators than its strict dominators have. -/
theorem rank_lt {a : Nat} (ha : g.Reachable a) (hb : g.Reachable b) (hdom : g.Dominates a b) (hne : a ≠ b) :
    t.rank a < t.rank b := by
  obtain ⟨p, hp, hpa⟩ := h.exists_position ha
  obtain ⟨q, hq, hqb⟩ := h.exists_position hb
  unfold rank
  rw [hp, hq]
  exact h.isExact.2.length_lt h.isExact.1 (ofCfg_parts h.parts).1 hpa hqb hdom hne

/-- A block has no more dominators than there are blocks. -/
theorem rank_le (b : Nat) : t.rank b ≤ t.blocks.length := by
  unfold rank
  split
  · rename_i p hp
    obtain ⟨-, -, -, -, hpos⟩ := h.order_spec
    have hlt := (List.getElem?_eq_some_iff.1 ((hpos b p).1 hp)).1
    have hlen := h.isExact.1.len p
    rw [← h.isExact.1.getD_eq hlt] at hlen
    have hle := List.length_filter_le (t.domBy.getD p (.empty 0)).contains (List.range (t.domBy.getD p (.empty 0)).len)
    rw [List.length_range] at hle
    exact hle.trans (Nat.le_of_eq hlen)
  · exact Nat.zero_le _

/-- The entry has no immediate dominator; that of any other reachable block strictly dominates it and is dominated by
all its strict dominators. -/
theorem idom?_spec (hb : g.Reachable b) :
    (b = g.entry ∧ t.idom? b = none) ∨ b ≠ g.entry ∧ ∃ d, t.idom? b = some d ∧ g.Reachable d ∧ g.Dominates d b ∧ d ≠ b ∧
      ∀ a, g.Reachable a → g.Dominates a b → a ≠ b → g.Dominates a d := by
  obtain ⟨-, -, hmem, -, hpos⟩ := h.order_spec
  obtain ⟨q, hq, hqb⟩ := h.exists_position hb
  have hfirst := order_zero (ofCfg_parts h.parts).1
  unfold idom? blockAt?
  rw [hq]
  rcases h.idom_eq hqb with ⟨rfl, hnone⟩ | ⟨d, hd, hnearest⟩
  · refine .inl ⟨Option.some.inj (hqb.symm.trans hfirst), ?_⟩
    dsimp only [bind, Option.bind]
    rw [hnone]
  · obtain ⟨c, hc, hdom, hne, hall⟩ := h.nearest?_spec hqb hnearest
    refine .inr ⟨?_, c, ?_, (hmem c).1 (List.mem_of_getElem? hc), hdom, hne, hall⟩
    · rintro rfl
      exact hne hdom.eq_entry
    · dsimp only [bind, Option.bind]
      rw [hd]
      exact hc

/-- The children of a block are the blocks that it immediately dominates, each once. -/
theorem mem_childrenOf_iff (hb : g.Reachable b) :
    (t.childrenOf b).Nodup ∧ ∀ c, c ∈ t.childrenOf b ↔ g.Reachable c ∧ t.idom? c = some b := by
  obtain ⟨hnodup, -, hmem, -, hpos⟩ := h.order_spec
  obtain ⟨q, hq, hqb⟩ := h.exists_position hb
  have hchildren : t.childrenOf b =
      (t.order.order.zipIdx.filter fun e => t.idom[e.2]?.join == some q).map Prod.fst := by
    unfold childrenOf
    rw [hq]
    dsimp only
    rw [(children_eq h.parts).1]
    exact getD_childLists _ _ (List.getElem?_eq_some_iff.1 hqb).1
  rw [hchildren]
  refine ⟨?_, fun c => ?_⟩
  · have hsub : ((t.order.order.zipIdx.filter fun e => t.idom[e.2]?.join == some q).map Prod.fst).Sublist
        (t.order.order.zipIdx.map Prod.fst) := List.filter_sublist.map _
    rw [List.zipIdx_map_fst] at hsub
    exact hsub.nodup hnodup
  · rw [List.mem_map]
    constructor
    · rintro ⟨⟨c, p⟩, he, rfl⟩
      rw [List.mem_filter, List.mem_zipIdx_iff_getElem?, beq_iff_eq] at he
      refine ⟨(hmem c).1 (List.mem_of_getElem? he.1), ?_⟩
      unfold idom? blockAt?
      rw [(hpos c p).2 he.1]
      dsimp only [bind, Option.bind]
      rw [getD_none_eq_join, he.2]
      exact hqb
    · rintro ⟨hc, hidom⟩
      obtain ⟨p, hp, hpc⟩ := h.exists_position hc
      refine ⟨(c, p), List.mem_filter.2 ⟨List.mem_zipIdx_iff_getElem?.2 hpc, beq_iff_eq.2 ?_⟩, rfl⟩
      unfold idom? blockAt? at hidom
      rw [hp] at hidom
      dsimp only [bind, Option.bind] at hidom
      rw [getD_none_eq_join] at hidom
      cases hd : t.idom[p]?.join with
      | none =>
        rw [hd] at hidom
        cases hidom
      | some d =>
        rw [hd] at hidom
        rw [position_inj (ofCfg_parts h.parts).1 hidom hqb]

variable {c : Nat}

/-- A child is strictly dominated, and what its parent strictly dominates and dominates it, it is. -/
theorem child_spec (hb : g.Reachable b) (hc : c ∈ t.childrenOf b) :
    g.Reachable c ∧ g.Dominates b c ∧ b ≠ c ∧ ∀ a, g.Reachable a → g.Dominates a c → a ≠ c → g.Dominates a b := by
  obtain ⟨hreach, hidom⟩ := ((h.mem_childrenOf_iff hb).2 c).1 hc
  rcases h.idom?_spec hreach with ⟨-, hnone⟩ | ⟨-, d, hd, -, hdom, hne, hall⟩
  · rw [hnone] at hidom
    cases hidom
  · rw [hd] at hidom
    cases hidom
    exact ⟨hreach, hdom, hne, hall⟩

/-- No block is below two children of one block. -/
theorem children_apart {x y : Nat} (hb : g.Reachable b) (hx : x ∈ t.childrenOf b) (hy : y ∈ t.childrenOf b)
    (hc : g.Reachable c) (hxc : g.Dominates x c) (hyc : g.Dominates y c) : x = y := by
  obtain ⟨hxreach, hbx, hbxne, hxall⟩ := h.child_spec hb hx
  obtain ⟨hyreach, hby, hbyne, hyall⟩ := h.child_spec hb hy
  by_contra hne
  rcases hxc.total hyc hc with hxy | hyx
  · exact hbxne (hbx.antisymm (hyall x hxreach hxy hne) hb)
  · exact hbyne (hby.antisymm (hxall y hyreach hyx (Ne.symm hne)) hb)

/-- A block that another one strictly dominates is below one of the children of the other. -/
theorem exists_child (hb : g.Reachable b) (hc : g.Reachable c) (hdom : g.Dominates b c) (hne : b ≠ c) :
    ∃ x ∈ t.childrenOf b, g.Dominates x c := by
  -- By induction on the number of dominators: the immediate dominator of `c` is `b`, or `b` strictly dominates it.
  induction hrank : t.rank c using Nat.strong_induction_on generalizing c with
  | _ n ih =>
    rcases h.idom?_spec hc with ⟨rfl, -⟩ | ⟨-, d, hd, hdreach, hdc, hdne, hall⟩
    · exact absurd hdom.eq_entry hne
    · by_cases hbd : b = d
      · exact ⟨c, ((h.mem_childrenOf_iff hb).2 c).2 ⟨hc, hbd ▸ hd⟩, .refl g c⟩
      · obtain ⟨x, hx, hxd⟩ := ih (t.rank d) (hrank ▸ h.rank_lt hdreach hc hdc hdne) hdreach
          (hall b hb hdom hne) hbd rfl
        exact ⟨x, hx, hxd.trans hdc⟩

/-- The blocks below a block are those that it dominates, each once, and none before one that it strictly dominates. -/
theorem postOrderFrom_spec {height : Nat} : ∀ {b : Nat}, g.Reachable b → t.blocks.length ≤ height + t.rank b →
    (∀ c, c ∈ t.postOrderFrom height b ↔ g.Reachable c ∧ g.Dominates b c) ∧ (t.postOrderFrom height b).Nodup ∧
      (t.postOrderFrom height b).Pairwise fun x y => g.Dominates x y → x = y := by
  induction height with
  | zero =>
    intro b hb hheight
    refine ⟨fun c => ⟨fun hc => ?_, fun hc => ?_⟩, List.nodup_singleton b, List.pairwise_singleton _ b⟩
    · rw [List.mem_singleton.1 hc]
      exact ⟨hb, .refl g b⟩
    · refine List.mem_singleton.2 (by_contra fun hne => ?_)
      have hlt := h.rank_lt hb hc.1 hc.2 (Ne.symm hne)
      have hle := h.rank_le c
      omega
  | succ height ih =>
    intro b hb hheight
    have hchild := fun x hx => h.child_spec (c := x) hb hx
    have hbelow : ∀ x ∈ t.childrenOf b, _ := fun x hx => ih (hchild x hx).1 (by
      have hlt := h.rank_lt hb (hchild x hx).1 (hchild x hx).2.1 (hchild x hx).2.2.1
      omega)
    have hmem : ∀ c, c ∈ t.postOrderFrom (height + 1) b ↔ g.Reachable c ∧ g.Dominates b c := by
      intro c
      rw [postOrderFrom, List.mem_append, List.mem_singleton, List.mem_flatMap]
      constructor
      · rintro (⟨x, hx, hc⟩ | rfl)
        · obtain ⟨hreach, hdom⟩ := ((hbelow x hx).1 c).1 hc
          exact ⟨hreach, (hchild x hx).2.1.trans hdom⟩
        · exact ⟨hb, .refl g c⟩
      · rintro ⟨hreach, hdom⟩
        by_cases hne : b = c
        · exact .inr hne.symm
        · obtain ⟨x, hx, hxc⟩ := h.exists_child hb hreach hdom hne
          exact .inl ⟨x, hx, ((hbelow x hx).1 c).2 ⟨hreach, hxc⟩⟩
    -- Blocks below different children do not dominate each other, and none of them dominates `b`.
    have hapart : ∀ {x y u v : Nat}, x ∈ t.childrenOf b → y ∈ t.childrenOf b → x ≠ y →
        u ∈ t.postOrderFrom height x → v ∈ t.postOrderFrom height y → ¬ g.Dominates u v := by
      intro x y u v hx hy hne hu hv huv
      obtain ⟨-, hxu⟩ := ((hbelow x hx).1 u).1 hu
      obtain ⟨hreach, hyv⟩ := ((hbelow y hy).1 v).1 hv
      exact hne (h.children_apart hb hx hy hreach (hxu.trans huv) hyv)
    have hlast : ∀ {x u : Nat}, x ∈ t.childrenOf b → u ∈ t.postOrderFrom height x → ¬ g.Dominates u b := by
      intro x u hx hu hub
      obtain ⟨hreach, hxu⟩ := ((hbelow x hx).1 u).1 hu
      exact (hchild x hx).2.2.1 ((hchild x hx).2.1.antisymm (hxu.trans hub) hb)
    have hchildren := (h.mem_childrenOf_iff hb).1
    have hpairs : (t.childrenOf b).Pairwise fun x y => x ∈ t.childrenOf b ∧ y ∈ t.childrenOf b ∧ x ≠ y :=
      List.Pairwise.imp_of_mem (fun hx hy hne => ⟨hx, hy, hne⟩) hchildren
    refine ⟨hmem, ?_, ?_⟩
    · rw [postOrderFrom]
      refine List.nodup_append.2 ⟨List.nodup_flatMap.2 ⟨fun x hx => (hbelow x hx).2.1, ?_⟩,
        List.nodup_singleton b, ?_⟩
      · refine hpairs.imp ?_
        rintro x y ⟨hx, hy, hne⟩ u hu hu'
        exact hapart hx hy hne hu hu' (.refl g u)
      · rintro u hu v hv rfl
        obtain ⟨x, hx, hu⟩ := List.mem_flatMap.1 hu
        rw [List.mem_singleton.1 hv] at hu
        exact hlast hx hu (.refl g b)
    · rw [postOrderFrom]
      refine List.pairwise_append.2 ⟨List.pairwise_flatMap.2 ⟨fun x hx => (hbelow x hx).2.2, ?_⟩,
        List.pairwise_singleton _ b, ?_⟩
      · refine hpairs.imp ?_
        rintro x y ⟨hx, hy, hne⟩ u hu v hv huv
        exact absurd huv (hapart hx hy hne hu hv)
      · intro u hu v hv huv
        obtain ⟨x, hx, hu⟩ := List.mem_flatMap.1 hu
        rw [List.mem_singleton.1 hv] at huv
        exact absurd huv (hlast hx hu)

/-- The postorder of the tree lists the reachable blocks, each once, and none before one that it strictly dominates. -/
theorem postOrder_spec : (∀ c, c ∈ t.postOrder ↔ g.Reachable c) ∧ t.postOrder.Nodup ∧
    t.postOrder.Pairwise fun x y => g.Dominates x y → x = y := by
  obtain ⟨-, hroot, -⟩ := h.order_spec
  obtain ⟨hmem, hnodup, hpairs⟩ := h.postOrderFrom_spec (b := g.entry) .refl (Nat.le_add_right t.blocks.length _)
  unfold postOrder
  rw [hroot]
  exact ⟨fun c => (hmem c).trans ⟨And.left, fun hc => ⟨hc, .of_entry g c⟩⟩, hnodup, hpairs⟩

end Exact

end DominatorTree

end SsaCompiler
