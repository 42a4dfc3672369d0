import SsaCompiler.Proofs.Machine.Worklists

/-!
# Merged nodes and the stack

Merged nodes form classes, each with one node that stands for it. What the colouring machine keeps
about them is `Classes`: adjacent nodes are in different classes; the nodes that stand for their
classes are adjacent themselves while neither is taken; and a node on the stack has a neighbour in
the class of every node that it must differ from and that was not taken before it. The last is what
makes it enough to look at the neighbours when colours are handed out in the order of the stack.
-/

set_option autoImplicit false

namespace SsaCompiler

namespace Coloring

variable {c c' : Coloring}

/-- The number of merged nodes. -/
def mergedCount (c : Coloring) : Nat :=
  ((Finset.range c.mergedInto.size).filter fun i => c.merged.contains i = true).card

/-- There are no more merged nodes than nodes. -/
theorem mergedCount_le (c : Coloring) : c.mergedCount ≤ c.mergedInto.size := by
  have h := Finset.card_filter_le (Finset.range c.mergedInto.size)
    fun i => c.merged.contains i = true
  rwa [Finset.card_range] at h

variable {n : Nat}

variable {k u v : Nat}

/-- A search that ended goes no further. -/
theorem aliasWithin_add (h : c.merged.contains (c.aliasWithin k n) = false) (j : Nat) :
    c.aliasWithin (k + j) n = c.aliasWithin k n := by
  induction k generalizing n with
  | zero =>
    cases j with
    | zero => rfl
    | succ j =>
      rw [aliasWithin] at h
      rw [Nat.zero_add, aliasWithin, aliasWithin, if_neg (by simp [h])]
  | succ k ih =>
    rw [aliasWithin] at h
    rw [Nat.add_right_comm, aliasWithin, aliasWithin]
    split
    · rename_i hm
      rw [if_pos hm] at h
      exact ih h
    · rfl

section

variable (hmerged : c'.merged = c.merged.insert v) (hinto : c'.mergedInto = c.mergedInto.setIfInBounds v u)
    (hv : v < c.mergedInto.size) (hvm : c.merged.contains v = false)

include hmerged hinto hv hvm

/-- Merging `v` into a node that is not merged makes that node stand for the whole class of `v`. -/
theorem aliasWithin_merge (hum : c.merged.contains u = false) (huv : u ≠ v)
    (h : c.merged.contains (c.aliasWithin k n) = false) :
    c'.aliasWithin (k + 1) n = if c.aliasWithin k n = v then u else c.aliasWithin k n := by
  have hstop : ∀ j, c'.aliasWithin j u = u := by
    intro j
    cases j with
    | zero => rfl
    | succ j => rw [aliasWithin, if_neg (by simp [hmerged, hum, Ne.symm huv])]
  have hstep : c'.mergedInto.getD v v = u := by
    rw [hinto, Liveness.getD_setIfInBounds, if_pos ⟨rfl, hv⟩]
  induction k generalizing n with
  | zero =>
    rw [aliasWithin] at h
    rw [show c.aliasWithin 0 n = n from rfl, aliasWithin]
    by_cases hnv : n = v
    · subst hnv
      rw [if_pos (by simp [hmerged]), hstep, hstop, if_pos rfl]
    · rw [if_neg (by simp [hmerged, h, Ne.symm hnv]), if_neg hnv]
  | succ k ih =>
    rw [aliasWithin]
    rw [aliasWithin] at h
    by_cases hm : c.merged.contains n = true
    · have hnv : n ≠ v := fun hnv => Bool.noConfusion ((hnv ▸ hvm).symm.trans hm)
      rw [if_pos hm] at h
      rw [if_pos (by simp [hmerged, hm]), hinto, Liveness.getD_setIfInBounds,
        if_neg (fun hc => hnv hc.1.symm), ih h, aliasWithin, if_pos hm]
    · rw [show c.aliasWithin (k + 1) n = n by rw [aliasWithin, if_neg hm]]
      by_cases hnv : n = v
      · subst hnv
        rw [if_pos (by simp [hmerged]), hstep, hstop]
        simp
      · rw [if_neg (by simp [hmerged, hm, Ne.symm hnv]), if_neg hnv]

/-- One more node is merged. -/
theorem mergedCount_merge : c'.mergedCount = c.mergedCount + 1 := by
  have hset : (Finset.range c'.mergedInto.size).filter (fun i => c'.merged.contains i = true) =
      insert v ((Finset.range c.mergedInto.size).filter fun i => c.merged.contains i = true) := by
    ext i
    simp only [hinto, hmerged, Array.size_setIfInBounds, Finset.mem_filter, Finset.mem_range,
      NatSet.contains_insert, Bool.or_eq_true, beq_iff_eq, Finset.mem_insert]
    constructor
    · rintro ⟨hi, h | rfl⟩
      · exact .inr ⟨hi, h⟩
      · exact .inl rfl
    · rintro (rfl | ⟨hi, h⟩)
      · exact ⟨hv, .inr rfl⟩
      · exact ⟨hi, .inl h⟩
  rw [mergedCount, hset, Finset.card_insert_of_notMem (by simp [hvm]), mergedCount]

end

/-- As many steps as there are merged nodes are enough to find the node that stands for a node. -/
theorem aliasOf_eq_of_settles (h : c.merged.contains (c.aliasWithin c.mergedCount n) = false) :
    c.aliasOf n = c.aliasWithin c.mergedCount n := by
  have hle := c.mergedCount_le
  have hadd := aliasWithin_add h (c.mergedInto.size - c.mergedCount)
  rwa [Nat.add_sub_cancel' hle] at hadd

/-- What holds of the classes of merged nodes and of the stack. -/
structure Classes (c : Coloring) : Prop where
  size_into : c.mergedInto.size = c.degree.size
  size_moves : c.moveList.size = c.degree.size
  size_graph : c.graph.neighbours.size = c.degree.size
  size_colors : c.colors.size = c.degree.size
  /-- The physical registers are known nodes. -/
  physical_known : Node.firstVirtual ≤ c.degree.size
  simple : c.graph.Simple
  moves_lt : ∀ p ∈ c.graph.moves, p.1 < c.degree.size ∧ p.2 < c.degree.size
  moves_budget : ∀ p ∈ c.graph.moves, ∀ r : Register, r.toNat = p.1 ∨ r.toNat = p.2 →
    c.budget.contains r = true
  merged_virtual : ∀ n, c.merged.contains n = true → Node.firstVirtual ≤ n ∧ n < c.degree.size
  settles : ∀ n, c.merged.contains (c.aliasWithin c.mergedCount n) = false
  mem_stack : ∀ n, n ∈ c.stack ↔ c.stacked.contains n = true
  nodup : c.stack.Nodup
  stacked_ok : ∀ n, c.stacked.contains n = true →
    Node.firstVirtual ≤ n ∧ n < c.degree.size ∧ c.merged.contains n = false
  alias_lt : ∀ n, n < c.degree.size → c.aliasOf n < c.degree.size
  alias_budget : ∀ n, Node.firstVirtual ≤ n → ∀ r : Register, r.toNat = c.aliasOf n →
    c.budget.contains r = true
  uncolored : ∀ n, c.colors.getD n none = none
  apart : ∀ a b, c.graph.adjacent a b = true → c.aliasOf a ≠ c.aliasOf b
  near : ∀ a b, c.graph.adjacent a b = true → c.stacked.contains (c.aliasOf a) = false →
    c.stacked.contains (c.aliasOf b) = false → c.graph.adjacent (c.aliasOf a) (c.aliasOf b) = true
  seen : ∀ a b, c.graph.adjacent a b = true → ∀ l l', c.stack = l ++ c.aliasOf a :: l' →
    c.aliasOf b ∉ l' → ∃ w, c.graph.adjacent (c.aliasOf a) w = true ∧ c.aliasOf w = c.aliasOf b

namespace Classes

/-- The node that stands for a node is found among the merged nodes. -/
theorem aliasOf_eq (h : c.Classes) (n : Nat) : c.aliasOf n = c.aliasWithin c.mergedCount n :=
  aliasOf_eq_of_settles (h.settles n)

/-- The node that stands for a node is not merged. -/
theorem unmerged_aliasOf (h : c.Classes) (n : Nat) : c.merged.contains (c.aliasOf n) = false := by
  rw [h.aliasOf_eq]
  exact h.settles n

theorem aliasOf_of_unmerged (hn : c.merged.contains n = false) : c.aliasOf n = n := by
  unfold aliasOf
  cases c.mergedInto.size with
  | zero => rfl
  | succ k => rw [aliasWithin, if_neg (by simp [hn])]

/-- The node that stands for a class stands for itself. -/
theorem aliasOf_aliasOf (h : c.Classes) (n : Nat) : c.aliasOf (c.aliasOf n) = c.aliasOf n :=
  aliasOf_of_unmerged (h.unmerged_aliasOf n)

/-- A physical register is not merged. -/
theorem unmerged_of_isPhysical (h : c.Classes) (hn : Node.isPhysical n = true) : c.merged.contains n = false := by
  by_contra hm
  have := (h.merged_virtual n (by simpa using hm)).1
  simp only [Node.isPhysical, decide_eq_true_eq] at hn
  omega

/-- The classes depend on the core only. -/
theorem of_core (h : c.Classes) (hcore : SameCore c c') : c'.Classes := by
  have halias := aliasOf_congr hcore.merged hcore.mergedInto
  have hcount : c'.mergedCount = c.mergedCount := by
    rw [mergedCount, mergedCount, hcore.mergedInto, hcore.merged]
  constructor
  · rw [hcore.mergedInto, hcore.size]
    exact h.size_into
  · rw [hcore.moveList, hcore.size]
    exact h.size_moves
  · rw [hcore.graph, hcore.size]
    exact h.size_graph
  · rw [hcore.colors, hcore.size]
    exact h.size_colors
  · rw [hcore.size]
    exact h.physical_known
  · rw [hcore.graph]
    exact h.simple
  · rw [hcore.graph, hcore.size]
    exact h.moves_lt
  · rw [hcore.graph, hcore.budget]
    exact h.moves_budget
  · rw [hcore.merged, hcore.size]
    exact h.merged_virtual
  · intro n
    rw [hcount, aliasWithin_congr hcore.merged hcore.mergedInto, hcore.merged]
    exact h.settles n
  · rw [hcore.stack, hcore.stacked]
    exact h.mem_stack
  · rw [hcore.stack]
    exact h.nodup
  · rw [hcore.stacked, hcore.size, hcore.merged]
    exact h.stacked_ok
  · simp only [halias, hcore.size]
    exact h.alias_lt
  · simp only [halias, hcore.budget]
    exact h.alias_budget
  · rw [hcore.colors]
    exact h.uncolored
  · simp only [halias, hcore.graph]
    exact h.apart
  · simp only [halias, hcore.graph, hcore.stacked]
    exact h.near
  · simp only [halias, hcore.graph, hcore.stack]
    exact h.seen

/-- Taking a free node onto the stack keeps the classes. -/
theorem push (h : c.Classes) (hn : c.Free n) :
    ({ c with stack := n :: c.stack, stacked := c.stacked.insert n } : Coloring).Classes := by
  set d : Coloring := { c with stack := n :: c.stack, stacked := c.stacked.insert n } with hd
  have halias : ∀ k, d.aliasOf k = c.aliasOf k := aliasOf_congr (by rw [hd]) (by rw [hd])
  have hself : c.aliasOf n = n := aliasOf_of_unmerged hn.unmerged
  have hnmem : n ∉ c.stack := by
    rw [h.mem_stack, hn.untaken]
    simp
  refine { h with
    settles := ?_, mem_stack := ?_, nodup := ?_, stacked_ok := ?_, alias_lt := ?_, alias_budget := ?_,
    apart := ?_, near := ?_, seen := ?_ }
  · intro k
    have hwithin : d.aliasWithin d.mergedCount k = c.aliasWithin c.mergedCount k :=
      aliasWithin_congr (by rw [hd]) (by rw [hd]) _ k
    rw [hwithin]
    exact h.settles k
  · intro k
    rw [hd, List.mem_cons, h.mem_stack, NatSet.contains_insert, Bool.or_eq_true, beq_iff_eq, eq_comm,
      or_comm]
  · exact List.nodup_cons.2 ⟨hnmem, h.nodup⟩
  · intro k hk
    rw [hd, NatSet.contains_insert, Bool.or_eq_true, beq_iff_eq] at hk
    rcases hk with hk | rfl
    · exact h.stacked_ok k hk
    · exact ⟨hn.virtual, hn.known, hn.unmerged⟩
  · simp only [halias]
    exact h.alias_lt
  · simp only [halias]
    exact h.alias_budget
  · simp only [halias]
    exact h.apart
  · intro a b hab ha hb
    rw [halias] at ha hb
    rw [halias, halias]
    simp only [hd, NatSet.contains_insert, Bool.or_eq_false_iff] at ha hb
    exact h.near a b hab ha.1 hb.1
  · intro a b hab l l' hsplit hb
    simp only [halias] at hsplit hb ⊢
    rcases List.cons_eq_append_iff.1 hsplit with ⟨rfl, heq⟩ | ⟨l₀, rfl, heq⟩
    · -- The node itself: the other one is not taken, so the two are adjacent.
      obtain ⟨han, rfl⟩ := List.cons.inj heq
      have hb' : c.stacked.contains (c.aliasOf b) = false := by
        rw [← Bool.not_eq_true, ← h.mem_stack]
        exact hb
      have ha' : c.stacked.contains (c.aliasOf a) = false := by
        rw [han]
        exact hn.untaken
      exact ⟨c.aliasOf b, h.near a b hab ha' hb', h.aliasOf_aliasOf b⟩
    · exact h.seen a b hab l₀ l' heq hb

end Classes

/-! ## Merging two classes -/

/-- A graph with new edges from a node to some others. -/
structure JoinedTo (g g' : Interference) (u : Nat) (nodes : List Nat) : Prop where
  size : g'.neighbours.size = g.neighbours.size
  moves : g'.moves = g.moves
  simple : g'.Simple
  adjacent : ∀ a b, g'.adjacent a b = true ↔
    g.adjacent a b = true ∨ (a = u ∧ b ∈ nodes) ∨ (b = u ∧ a ∈ nodes)

/-- The state with `v` merged into `u`, over another graph. -/
def mergedState (c : Coloring) (g : Interference) (u v : Nat) : Coloring :=
  { c with
    graph := g
    merged := c.merged.insert v
    mergedInto := c.mergedInto.setIfInBounds v u
    moveList := c.moveList.modify u (·.union (c.moveList.getD v .empty)) }

/-- What makes it right to merge `v` into `u`. -/
structure Mergeable (c : Coloring) (u v : Nat) : Prop where
  ne : u ≠ v
  free : c.Free v
  known : u < c.degree.size
  unmerged : c.merged.contains u = false
  untaken : c.stacked.contains u = false
  budget : ∀ r : Register, r.toNat = u → c.budget.contains r = true
  apart : c.graph.adjacent u v = false

/-- After a merge `u` stands for the class of `v`, and the other classes keep their nodes. -/
theorem aliasOf_mergedState (h : c.Classes) (hm : c.Mergeable u v) (g : Interference) (n : Nat) :
    (c.mergedState g u v).aliasOf n = (if c.aliasOf n = v then u else c.aliasOf n) ∧
      (c.mergedState g u v).merged.contains
        ((c.mergedState g u v).aliasWithin (c.mergedState g u v).mergedCount n) = false := by
  have hv : v < c.mergedInto.size := h.size_into ▸ hm.free.known
  have hcount : (c.mergedState g u v).mergedCount = c.mergedCount + 1 :=
    mergedCount_merge rfl rfl hv hm.free.unmerged
  have hwithin : (c.mergedState g u v).aliasWithin (c.mergedCount + 1) n =
      if c.aliasWithin c.mergedCount n = v then u else c.aliasWithin c.mergedCount n :=
    aliasWithin_merge rfl rfl hv hm.free.unmerged hm.unmerged hm.ne (h.settles n)
  have hsettled : (c.mergedState g u v).merged.contains
      ((c.mergedState g u v).aliasWithin (c.mergedState g u v).mergedCount n) = false := by
    rw [hcount, hwithin]
    change (c.merged.insert v).contains _ = false
    rw [NatSet.contains_insert, Bool.or_eq_false_iff]
    split
    · exact ⟨hm.unmerged, beq_false_of_ne hm.ne.symm⟩
    · rename_i hne
      exact ⟨h.settles n, beq_false_of_ne (Ne.symm hne)⟩
  refine ⟨?_, hsettled⟩
  rw [aliasOf_eq_of_settles hsettled, hcount, hwithin, h.aliasOf_eq]

/-- Merging two nodes that may be merged keeps the classes, if the node that now stands for both gets
the neighbours of the other one. -/
theorem Classes.merge {g : Interference} {nodes : List Nat} (h : c.Classes) (hm : c.Mergeable u v)
    (hg : JoinedTo c.graph g u nodes)
    (hnodes : ∀ t, t ∈ nodes ↔ c.graph.adjacent v t = true ∧ c.stacked.contains t = false ∧
      c.merged.contains t = false) : (c.mergedState g u v).Classes := by
  have halias : ∀ n, (c.mergedState g u v).aliasOf n = if c.aliasOf n = v then u else c.aliasOf n :=
    fun n => (aliasOf_mergedState h hm g n).1
  have hau : c.aliasOf u = u := Classes.aliasOf_of_unmerged hm.unmerged
  have hself : ∀ t ∈ nodes, c.aliasOf t = t ∧ t ≠ v ∧ t ≠ u := by
    intro t ht
    obtain ⟨hadj, -, hun⟩ := (hnodes t).1 ht
    refine ⟨Classes.aliasOf_of_unmerged hun, fun htv => h.simple.irrefl hadj htv.symm, ?_⟩
    rintro rfl
    exact Bool.noConfusion (hm.apart.symm.trans (h.simple.symm hadj))
  have hnot : ∀ a b, c.graph.adjacent a b = true → c.aliasOf a = v → c.aliasOf b ≠ u := by
    intro a b hab ha hb
    have hadj := h.near a b hab (ha ▸ hm.free.untaken) (hb ▸ hm.untaken)
    rw [ha, hb] at hadj
    exact Bool.noConfusion (hm.apart.symm.trans (h.simple.symm hadj))
  have htaken : ∀ l l' n, c.stack = l ++ n :: l' → n ≠ u ∧ n ≠ v := by
    intro l l' n hsplit
    have hn : c.stacked.contains n = true := (h.mem_stack n).1 (by simp [hsplit])
    constructor
    · rintro rfl
      exact Bool.noConfusion (hm.untaken.symm.trans hn)
    · rintro rfl
      exact Bool.noConfusion (hm.free.untaken.symm.trans hn)
  refine
    { size_into := ?_, size_moves := ?_, size_graph := hg.size.trans h.size_graph
      size_colors := h.size_colors, physical_known := h.physical_known, simple := hg.simple
      moves_lt := ?_, moves_budget := ?_, merged_virtual := ?_
      settles := fun n => (aliasOf_mergedState h hm g n).2
      mem_stack := h.mem_stack, nodup := h.nodup, stacked_ok := ?_, alias_lt := ?_
      alias_budget := ?_, uncolored := h.uncolored, apart := ?_, near := ?_, seen := ?_ }
  · exact (Array.size_setIfInBounds).trans h.size_into
  · exact (Array.size_modify).trans h.size_moves
  · change ∀ p ∈ g.moves, _
    rw [hg.moves]
    exact h.moves_lt
  · change ∀ p ∈ g.moves, _
    rw [hg.moves]
    exact h.moves_budget
  · intro n hn
    change (c.merged.insert v).contains n = true at hn
    rw [NatSet.contains_insert, Bool.or_eq_true, beq_iff_eq] at hn
    rcases hn with hn | rfl
    · exact h.merged_virtual n hn
    · exact ⟨hm.free.virtual, hm.free.known⟩
  · intro n hn
    obtain ⟨hvirt, hlt, hun⟩ := h.stacked_ok n hn
    refine ⟨hvirt, hlt, ?_⟩
    change (c.merged.insert v).contains n = false
    rw [NatSet.contains_insert, hun, Bool.false_or, beq_eq_false_iff_ne]
    rintro rfl
    exact Bool.noConfusion (hm.free.untaken.symm.trans hn)
  · intro n hn
    rw [halias]
    split
    · exact hm.known
    · exact h.alias_lt n hn
  · intro n hn r hr
    rw [halias] at hr
    split at hr
    · exact hm.budget r hr
    · exact h.alias_budget n hn r hr
  · intro a b hab
    rw [halias, halias]
    rcases (hg.adjacent a b).1 hab with hab | ⟨rfl, hb⟩ | ⟨rfl, ha⟩
    · have hne := h.apart a b hab
      by_cases ha : c.aliasOf a = v
      · rw [if_pos ha, if_neg fun hb => hne (ha.trans hb.symm)]
        exact (hnot a b hab ha).symm
      · rw [if_neg ha]
        by_cases hb : c.aliasOf b = v
        · rw [if_pos hb]
          exact hnot b a (h.simple.symm hab) hb
        · rw [if_neg hb]
          exact hne
    · obtain ⟨hbb, hbv, hba⟩ := hself b hb
      rw [hau, hbb, if_neg hm.ne, if_neg hbv]
      exact hba.symm
    · obtain ⟨haa, hav, hab⟩ := hself a ha
      rw [hau, haa, if_neg hm.ne, if_neg hav]
      exact hab
  · intro a b hab ha hb
    change c.stacked.contains _ = false at ha hb
    change g.adjacent _ _ = true
    rw [halias] at ha hb
    rw [halias, halias, hg.adjacent]
    rcases (hg.adjacent a b).1 hab with hab | ⟨rfl, hb'⟩ | ⟨rfl, ha'⟩
    · have hne := h.apart a b hab
      by_cases hav : c.aliasOf a = v
      · have hbv : c.aliasOf b ≠ v := fun hbv => hne (hav.trans hbv.symm)
        rw [if_neg hbv] at hb ⊢
        rw [if_pos hav]
        refine .inr (.inl ⟨rfl, (hnodes _).2 ⟨?_, hb, h.unmerged_aliasOf b⟩⟩)
        rw [← hav]
        exact h.near a b hab (hav ▸ hm.free.untaken) hb
      · rw [if_neg hav] at ha ⊢
        by_cases hbv : c.aliasOf b = v
        · rw [if_pos hbv]
          refine .inr (.inr ⟨rfl, (hnodes _).2 ⟨?_, ha, h.unmerged_aliasOf a⟩⟩)
          rw [← hbv]
          exact h.near b a (h.simple.symm hab) (hbv ▸ hm.free.untaken) ha
        · rw [if_neg hbv] at hb ⊢
          exact .inl (h.near a b hab ha hb)
    · obtain ⟨hbb, hbv, -⟩ := hself b hb'
      rw [hau, hbb, if_neg hm.ne, if_neg hbv]
      exact .inr (.inl ⟨rfl, hb'⟩)
    · obtain ⟨haa, hav, -⟩ := hself a ha'
      rw [hau, haa, if_neg hm.ne, if_neg hav]
      exact .inr (.inr ⟨rfl, ha'⟩)
  · intro a b hab l l' hsplit hb
    change c.stack = _ at hsplit
    change ∃ w, g.adjacent _ w = true ∧ _
    rw [halias] at hsplit hb
    rw [halias, halias]
    have hau' : c.aliasOf a ≠ v := by
      intro hav
      rw [if_pos hav] at hsplit
      exact (htaken l l' u hsplit).1 rfl
    rw [if_neg hau'] at hsplit ⊢
    rcases (hg.adjacent a b).1 hab with hab | ⟨rfl, -⟩ | ⟨rfl, ha⟩
    · have hb' : c.aliasOf b ∉ l' := by
        by_cases hbv : c.aliasOf b = v
        · intro hmem
          have hst := (h.mem_stack v).1 (by rw [hsplit, ← hbv]; simp [hmem])
          exact Bool.noConfusion (hm.free.untaken.symm.trans hst)
        · rwa [if_neg hbv] at hb
      obtain ⟨w, haw, hw⟩ := h.seen a b hab l l' hsplit hb'
      exact ⟨w, (hg.adjacent _ _).2 (.inl haw), by rw [halias, hw]⟩
    · exact absurd hau (htaken l l' _ hsplit).1
    · obtain ⟨haa, -, -⟩ := hself a ha
      have hst := (h.mem_stack a).1 (by rw [hsplit, haa]; simp)
      exact Bool.noConfusion (((hnodes a).1 ha).2.1.symm.trans hst)

end Coloring

end SsaCompiler
