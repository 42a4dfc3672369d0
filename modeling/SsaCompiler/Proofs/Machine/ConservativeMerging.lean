import SsaCompiler.Proofs.Machine.Degrees
import SsaCompiler.Proofs.Machine.FinishedAllocation

/-!
# Merging is conservative

A graph is easy to colour when it can be reduced to its physical registers by removing virtual nodes that have fewer
neighbours left than there are colours. What carries the proof is the same thing said of parts: every part of the graph
with a virtual node has a virtual node with few neighbours in it (`Sparse`). Taking a node keeps this because parts of
parts are parts. Merging keeps it because in a part of the merged graph where every node has many neighbours, only nodes
of high degree can be left, and for these the two tests say that the merged node makes no difference.

So the colouring machine never has to take a node in the hope of a colour, every node on the stack had fewer neighbours
than there are colours when it was taken, and allocation ends with its first round.
-/

set_option autoImplicit false

namespace SsaCompiler

namespace Interference

variable {g g' : Interference} {colors : Nat} {left : Finset Nat} {nodes nodes' : Nat → Prop}

/-- The nodes that are left can be reduced to physical registers, by removing one after the other virtual nodes that
have fewer neighbours left than there are colours. -/
inductive Reducible (g : Interference) (colors : Nat) : Finset Nat → Prop
  | done {left : Finset Nat} (h : ∀ n ∈ left, Node.isPhysical n = true) : Reducible g colors left
  | remove {left : Finset Nat} {n : Nat} (hn : n ∈ left) (hvirtual : Node.isPhysical n = false)
      (hfew : (left.filter fun t => g.adjacent n t = true).card < colors)
      (hrest : Reducible g colors (left.erase n)) : Reducible g colors left

/-- Every part of some nodes with a virtual node has a virtual node with fewer neighbours in the part than there are
colours. -/
def Sparse (g : Interference) (colors : Nat) (nodes : Nat → Prop) : Prop :=
  ∀ part : Finset Nat, (∀ n ∈ part, nodes n) → (∃ n ∈ part, Node.isPhysical n = false) →
    ∃ n ∈ part, Node.isPhysical n = false ∧ (part.filter fun t => g.adjacent n t = true).card < colors

/-- Of a reducible graph every part has a node with few neighbours: the one that is removed first. -/
theorem Reducible.sparse (h : Reducible g colors left) : g.Sparse colors fun n => n ∈ left := by
  induction h with
  | done hphys =>
    rintro part hpart ⟨n, hn, hvirtual⟩
    exact Bool.noConfusion (hvirtual.symm.trans (hphys n (hpart n hn)))
  | @remove left n hn hvirtual hfew _ ih =>
    intro part hpart hsome
    by_cases hin : n ∈ part
    · refine ⟨n, hin, hvirtual, lt_of_le_of_lt (Finset.card_le_card ?_) hfew⟩
      exact Finset.filter_subset_filter _ fun t ht => hpart t ht
    · refine ih part (fun t ht => Finset.mem_erase.2 ⟨?_, hpart t ht⟩) hsome
      rintro rfl
      exact hin ht

theorem Sparse.mono (h : g.Sparse colors nodes) (hsub : ∀ n, nodes' n → nodes n) : g.Sparse colors nodes' :=
  fun part hpart => h part fun n hn => hsub n (hpart n hn)

end Interference

namespace Coloring

variable {c c' : Coloring} {u v : Nat}

/-- A known node that is neither taken nor merged. -/
def InGraph (c : Coloring) (n : Nat) : Prop :=
  n < c.degree.size ∧ c.stacked.contains n = false ∧ c.merged.contains n = false

instance (c : Coloring) : DecidablePred c.InGraph := fun _ => inferInstanceAs (Decidable (_ ∧ _))

/-! ## Merging keeps the graph sparse -/

section Merge

variable {g : Interference} {around : List Nat}

/-- A node with many neighbours in a part of the merged graph had many neighbours before the merge: instead of the
merged node it has the one that stands for it. -/
theorem Measured.many_of_merge (h : c.Measured []) (hc : c.Classes) (hm : c.Mergeable u v)
    (hjoin : JoinedTo c.graph g u around) (haround : ∀ t, t ∈ around ↔ t ∈ c.around v) {part : Finset Nat}
    (hpart : ∀ n ∈ part, c.InGraph n ∧ n ≠ v) {t : Nat} (ht : t ∈ part) (hvirtual : Node.isPhysical t = false)
    (htu : t ≠ u) (hmany : c.colorCount ≤ (part.filter fun x => g.adjacent t x = true).card) : c.colorCount ≤ c.degreeOf t := by
  have hfree : c.Free t :=
    ⟨by simpa [Node.isPhysical] using hvirtual, (hpart t ht).1.1, (hpart t ht).1.2.2, (hpart t ht).1.2.1⟩
  rw [h.free t hfree, if_neg List.not_mem_nil, Nat.add_zero]
  refine hmany.trans ?_
  by_cases htv : t ∈ around
  · have hv : v ∈ c.around t :=
      mem_around.2 ⟨hc.simple.symm (mem_around.1 ((haround t).1 htv)).1, hm.free.untaken, hm.free.unmerged⟩
    calc (part.filter fun x => g.adjacent t x = true).card
      _ ≤ (insert u ((c.around t).erase v)).card := Finset.card_le_card fun x hx => by
          obtain ⟨hxpart, hadj⟩ := Finset.mem_filter.1 hx
          rw [Finset.mem_insert, Finset.mem_erase, mem_around]
          rcases (hjoin.adjacent t x).1 hadj with hadj | ⟨rfl, -⟩ | ⟨rfl, -⟩
          · exact .inr ⟨(hpart x hxpart).2, hadj, (hpart x hxpart).1.2⟩
          · exact absurd rfl htu
          · exact .inl rfl
      _ ≤ ((c.around t).erase v).card + 1 := Finset.card_insert_le _ _
      _ = (c.around t).card := Finset.card_erase_add_one hv
  · refine Finset.card_le_card fun x hx => ?_
    obtain ⟨hxpart, hadj⟩ := Finset.mem_filter.1 hx
    rcases (hjoin.adjacent t x).1 hadj with hadj | ⟨rfl, -⟩ | ⟨-, htv'⟩
    · exact mem_around.2 ⟨hadj, (hpart x hxpart).1.2⟩
    · exact absurd rfl htu
    · exact absurd htv' htv

/-- Merging two nodes that pass the test keeps every part with a virtual node from having many neighbours for all of
its virtual nodes. -/
theorem Measured.sparse_merge (h : c.Measured []) (hc : c.Classes)
    (hm : c.Mergeable u v) (hmay : c.mayMerge u v = true) (hjoin : JoinedTo c.graph g u around)
    (haround : ∀ t, t ∈ around ↔ t ∈ c.around v) (hsparse : c.graph.Sparse c.colorCount c.InGraph) :
    g.Sparse c.colorCount fun n => c.InGraph n ∧ n ≠ v := by
  intro part hpart hsome
  by_contra hno
  have hmany : ∀ n ∈ part, Node.isPhysical n = false →
      c.colorCount ≤ (part.filter fun t => g.adjacent n t = true).card := fun n hn hvirtual =>
    Nat.le_of_not_lt fun hlt => hno ⟨n, hn, hvirtual, hlt⟩
  -- All nodes of the part have a high degree, the merged one apart.
  have hhigh : ∀ t ∈ part, t ≠ u → c.isSignificant t = true := by
    intro t ht htu
    refine decide_eq_true ?_
    cases hphys : Node.isPhysical t with
    | true => exact h.physical t (hpart t ht).1.1 hphys
    | false => exact h.many_of_merge hc hm hjoin haround hpart ht hphys htu (hmany t ht hphys)
  -- So the new edges make no difference to the part.
  have hsame : ∀ t ∈ part, Node.isPhysical t = false → ∀ x ∈ part, g.adjacent t x = true →
      c.graph.adjacent t x = true := by
    unfold mayMerge at hmay
    cases hphys : Node.isPhysical u with
    | true =>
      rw [hphys, if_pos rfl, List.all_eq_true] at hmay
      intro t ht hvirtual x hx hadj
      have htu : t ≠ u := by
        rintro rfl
        exact Bool.noConfusion (hvirtual.symm.trans hphys)
      rcases (hjoin.adjacent t x).1 hadj with hadj' | ⟨rfl, -⟩ | ⟨rfl, htv⟩
      · exact hadj'
      · exact absurd rfl htu
      · have hharm := hmay t (mem_adjacent.2 (mem_around.1 ((haround t).1 htv)))
        rw [harmless, hhigh t ht htu, hvirtual] at hharm
        simpa using hharm
    | false =>
      rw [hphys, if_neg Bool.false_ne_true, decide_eq_true_eq] at hmay
      have hu : u ∉ part := by
        intro hu
        refine absurd (hmany u hu hphys) (Nat.not_le.2 (lt_of_le_of_lt ?_ hmay))
        refine (Finset.card_le_card fun x hx => ?_).trans (List.toFinset_card_le _)
        obtain ⟨hxpart, hadj⟩ := Finset.mem_filter.1 hx
        have hxu : x ≠ u := (hjoin.simple.irrefl hadj).symm
        rw [List.mem_toFinset, List.mem_filter, NatSet.mem_toList, NatSet.contains_union, Bool.or_eq_true]
        refine ⟨?_, hhigh x hxpart hxu⟩
        rcases (hjoin.adjacent u x).1 hadj with hadj' | ⟨-, hxv⟩ | ⟨rfl, -⟩
        · exact .inl (NatSet.mem_toList.1 (mem_adjacent.2 ⟨hadj', (hpart x hxpart).1.2⟩))
        · exact .inr (NatSet.mem_toList.1 (mem_adjacent.2 (mem_around.1 ((haround x).1 hxv))))
        · exact absurd rfl hxu
      intro t ht _ x hx hadj
      rcases (hjoin.adjacent t x).1 hadj with hadj' | ⟨rfl, -⟩ | ⟨rfl, -⟩
      · exact hadj'
      · exact absurd ht hu
      · exact absurd hx hu
  obtain ⟨n, hn, hvirtual, hfew⟩ := hsparse part (fun n hn => (hpart n hn).1) hsome
  refine absurd (hmany n hn hvirtual) (Nat.not_le.2 (lt_of_le_of_lt (Finset.card_le_card fun x hx => ?_) hfew))
  obtain ⟨hxpart, hadj⟩ := Finset.mem_filter.1 hx
  exact Finset.mem_filter.2 ⟨hxpart, hsame n hn hvirtual x hxpart hadj⟩

end Merge

/-! ## Room for a colour -/

/-- A node on the stack finds a colour: whatever it interferes with is still on the stack when it gets its colour, or is
in the class of one of fewer nodes than there are colours. -/
def Roomy (c : Coloring) : Prop :=
  ∀ l n l', c.stack = l ++ n :: l' → ∃ near : List Nat, near.length < c.colorCount ∧
    ∀ w, c.graph.adjacent n w = true → c.aliasOf w ∈ l' ∨ ∃ x ∈ near, c.aliasOf w = c.aliasOf x

/-- Room for a colour depends on the core only. -/
theorem Roomy.of_core (h : c.Roomy) (hcore : SameCore c c') : c'.Roomy := by
  have halias := aliasOf_congr hcore.merged hcore.mergedInto
  intro l n l' hstack
  rw [hcore.stack] at hstack
  obtain ⟨near, hnear, hw⟩ := h l n l' hstack
  refine ⟨near, hcore.colorCount.symm ▸ hnear, fun w hadj => ?_⟩
  rw [hcore.graph] at hadj
  simp only [halias]
  exact hw w hadj

/-- A node that is taken with few neighbours in the graph has room for a colour. -/
theorem Roomy.taken {n : Nat} (h : c.Roomy) (hc : c.Classes) (hn : c.Free n) (hfew : (c.around n).card < c.colorCount) :
    (c.taken n).Roomy := by
  intro l k l' hstack
  change n :: c.stack = l ++ k :: l' at hstack
  have halias : ∀ k, (c.taken n).aliasOf k = c.aliasOf k := aliasOf_congr rfl rfl
  simp only [halias]
  change ∃ near : List Nat, near.length < c.colorCount ∧ ∀ w, c.graph.adjacent k w = true → _
  cases l with
  | cons a l =>
    obtain ⟨-, hstack'⟩ := List.cons.inj hstack
    exact h l k l' hstack'
  | nil =>
    obtain ⟨rfl, rfl⟩ := List.cons.inj hstack
    refine ⟨(c.adjacent n).toList, card_around c n ▸ hfew, fun w hadj => ?_⟩
    rw [hc.mem_stack]
    cases htaken : c.stacked.contains (c.aliasOf w) with
    | true => exact .inl rfl
    | false =>
      have hself : c.aliasOf n = n := Classes.aliasOf_of_unmerged hn.unmerged
      have hnear := hc.near n w hadj (hself.symm ▸ hn.untaken) htaken
      rw [hself] at hnear
      exact .inr ⟨c.aliasOf w, mem_adjacent.2 ⟨hnear, htaken, hc.unmerged_aliasOf w⟩, (hc.aliasOf_aliasOf w).symm⟩

/-- Merging leaves the nodes on the stack their room: it adds no edge to them and joins classes. -/
theorem Roomy.merge {g : Interference} {around : List Nat} (h : c.Roomy) (hc : c.Classes) (hm : c.Mergeable u v)
    (hjoin : JoinedTo c.graph g u around) (haround : ∀ t, t ∈ around ↔ t ∈ c.around v) :
    (c.mergedState g u v).Roomy := by
  have halias := fun k => (aliasOf_mergedState hc hm g k).1
  intro l n l' hstack
  change c.stack = l ++ n :: l' at hstack
  have htaken : c.stacked.contains n = true := (hc.mem_stack n).1 (by simp [hstack])
  obtain ⟨near, hnear, hw⟩ := h l n l' hstack
  refine ⟨near, hnear, fun w hadj => ?_⟩
  have hadj' : c.graph.adjacent n w = true := by
    rcases (hjoin.adjacent n w).1 hadj with hadj | ⟨rfl, -⟩ | ⟨-, hin⟩
    · exact hadj
    · exact Bool.noConfusion (hm.untaken.symm.trans htaken)
    · exact Bool.noConfusion ((mem_around.1 ((haround n).1 hin)).2.1.symm.trans htaken)
  rw [halias]
  rcases hw w hadj' with hrest | ⟨x, hx, hwx⟩
  · have hwv : c.aliasOf w ≠ v := by
      rintro heq
      have hv : c.stacked.contains v = true := (hc.mem_stack v).1 (by simp [hstack, ← heq, hrest])
      exact Bool.noConfusion (hm.free.untaken.symm.trans hv)
    rw [if_neg hwv]
    exact .inl hrest
  · exact .inr ⟨x, hx, by rw [halias, hwx]⟩

/-! ## Nodes that are ready have few neighbours -/

/-- Nodes that are to be taken have a low degree. -/
def Ready (c : Coloring) : Prop :=
  ∀ n, Node.isPhysical n = false → c.simplifyList.contains n = true → c.degreeOf n < c.colorCount

/-- More nodes may be made ready if their degree is low. -/
theorem Ready.of_lists (h : c.Ready) (hcolors : c'.colorCount = c.colorCount) (hdegree : c'.degree = c.degree)
    (hnew : ∀ n, c'.simplifyList.contains n = true → c.simplifyList.contains n = true ∨ c.degreeOf n < c.colorCount) :
    c'.Ready := by
  intro n hvirtual hn
  rw [degreeOf, hdegree, hcolors]
  exact (hnew n hn).elim (h n hvirtual) id

/-- A node that loses a neighbour is made ready when its degree gets low. -/
theorem Ready.lowerDegree {t : Nat} (h : ∀ n, Node.isPhysical n = false → n ≠ t → c.simplifyList.contains n = true →
      c.degreeOf n < c.colorCount)
    (ht : Node.isPhysical t = false → c.simplifyList.contains t = true → c.degreeOf t ≤ c.colorCount)
    (hcolors : 0 < c.colorCount) (hlt : t < c.degree.size) : (c.lowerDegree t).Ready := by
  intro n hvirtual hn
  rw [(sameCore_lowerDegree c t).colorCount]
  cases hphys : Node.isPhysical t with
  | true =>
    rw [lowerDegree_of_isPhysical hphys] at hn ⊢
    refine h n hvirtual ?_ hn
    rintro rfl
    exact Bool.noConfusion (hvirtual.symm.trans hphys)
  | false =>
    obtain ⟨hother, -⟩ := lists_lowerDegree (c := c) hphys n
    rw [degreeOf_lowerDegree hphys hlt]
    by_cases hnt : n = t
    · subst hnt
      rw [if_pos rfl]
      by_cases hfull : c.degreeOf n = c.colorCount
      · omega
      · rw [(hother (.inr hfull)).1] at hn
        have := ht hphys hn
        omega
    · rw [if_neg hnt]
      rw [(hother (.inl hnt)).1] at hn
      exact h n hvirtual hnt hn

/-- Nodes lose a neighbour one after the other. -/
theorem Ready.foldl_lowerDegree (nodes : List Nat) (h : c.Ready) (hcolors : 0 < c.colorCount)
    (hlt : ∀ t ∈ nodes, t < c.degree.size) : (nodes.foldl Coloring.lowerDegree c).Ready := by
  induction nodes generalizing c with
  | nil => exact h
  | cons t nodes ih =>
    have hcore := sameCore_lowerDegree c t
    have hnext : (c.lowerDegree t).Ready :=
      .lowerDegree (fun n hvirtual _ => h n hvirtual) (fun hphys ht => (h t hphys ht).le) hcolors
        (hlt t List.mem_cons_self)
    refine ih hnext (hcore.colorCount ▸ hcolors) fun k hk => ?_
    rw [hcore.size]
    exact hlt k (List.mem_cons_of_mem _ hk)

/-- The neighbours of a merged node go over to one that is not ready. -/
theorem Ready.foldl_join (nodes : List Nat) (h : c.Ready) (hcolors : 0 < c.colorCount)
    (hu : c.simplifyList.contains u = false) (hnodes : ∀ t ∈ nodes, t ≠ u ∧ t < c.degree.size) :
    (nodes.foldl (fun c t => (c.connect t u).lowerDegree t) c).Ready := by
  induction nodes generalizing c with
  | nil => exact h
  | cons t nodes ih =>
    obtain ⟨htu, hlt⟩ := hnodes t List.mem_cons_self
    have hcore := sameCore_connect c t u
    have hcore' := sameCore_lowerDegree (c.connect t u) t
    have hsimplify := (lists_connect c t u).1
    have hnext : ((c.connect t u).lowerDegree t).Ready := by
      refine .lowerDegree (fun n hvirtual hnt hn => ?_) (fun hphys ht => ?_) (hcore.colorCount ▸ hcolors)
        (hcore.size ▸ hlt)
      · rw [hsimplify] at hn
        have hnu : n ≠ u := by
          rintro rfl
          exact Bool.noConfusion (hu.symm.trans hn)
        rw [(degreeOf_connect htu n).2.2 hnt hnu, hcore.colorCount]
        exact h n hvirtual hn
      · rw [hcore.colorCount]
        exact (degreeOf_connect htu t).2.1.trans (h t hphys (hsimplify ▸ ht))
    refine ih hnext (hcore'.colorCount ▸ hcore.colorCount ▸ hcolors) ?_ fun k hk => ?_
    · change ((c.connect t u).lowerDegree t).simplifyList.contains u = false
      cases hphys : Node.isPhysical t with
      | true => rw [lowerDegree_of_isPhysical hphys, hsimplify, hu]
      | false => rw [((lists_lowerDegree hphys u).1 (.inl htu.symm)).1, hsimplify, hu]
    · rw [hcore'.size, hcore.size]
      exact hnodes k (List.mem_cons_of_mem _ hk)

/-- Releasing a node makes it ready only if its degree is low. -/
theorem Ready.release (h : c.Ready) (n : Nat) : (c.release n).Ready := by
  refine h.of_lists (sameCore_release c n).colorCount (lists_release n).2.2 fun k hk => ?_
  unfold Coloring.release at hk
  split at hk
  · rename_i hcond
    rcases (contains_insert_iff _ n k).1 hk with hk | rfl
    · exact .inl hk
    · simp only [Bool.and_eq_true, Bool.not_eq_true', isSignificant, decide_eq_false_iff_not, not_le] at hcond
      exact .inr hcond.2
  · exact .inl hk

/-- Giving up copies makes nodes ready only if their degree is low. -/
theorem Ready.freezeMoves (h : c.Ready) (u : Nat) : (c.freezeMoves u).Ready := by
  rw [freezeMoves_eq]
  generalize (c.nodeMoves u).toList = moves
  induction moves generalizing c with
  | nil => exact h
  | cons m moves ih =>
    refine ih ?_
    unfold freezeMove
    generalize c.graph.moves.getD m (0, 0) = p
    dsimp only
    generalize (if c.aliasOf p.2 = c.aliasOf u then c.aliasOf p.1 else c.aliasOf p.2) = v
    split
    · rename_i hcond
      refine h.of_lists rfl rfl fun k hk => ?_
      rcases (contains_insert_iff _ v k).1 hk with hk | rfl
      · exact .inl hk
      · simp only [Bool.and_eq_true, Bool.not_eq_true', isSignificant, decide_eq_false_iff_not, not_le] at hcond
        exact .inr hcond.1.2
    · exact h

/-- Merging makes nodes ready only if their degree is low. -/
theorem Ready.merge (h : c.Ready) (hc : c.Classes) (hcolors : 0 < c.colorCount)
    (hw : c.Worklists fun k => (False ∨ k = u) ∨ k = v) (hm : c.Mergeable u v)
    (hu : c.simplifyList.contains u = false) (hv : c.simplifyList.contains v = false) : (c.merge u v).Ready := by
  obtain ⟨hcore, -, hsimplify, -, hnodes⟩ := joining_spec hc hw hm hv
  have hjoining : (c.joining u v).Ready :=
    h.of_lists hcore.colorCount (degree_joining c u v) fun k hk => .inl (hsimplify ▸ hk)
  have hjoined := hjoining.foldl_join ((c.joining u v).adjacent v).toList (hcore.colorCount ▸ hcolors) (hsimplify ▸ hu)
    fun t ht => ⟨(hnodes t ht).1, (hnodes t ht).2.2.1⟩
  rw [merge_eq]
  refine hjoined.of_lists ?_ (degree_outgrow _ u) fun k hk => ?_
  · unfold Coloring.outgrow
    split <;> rfl
  · unfold Coloring.outgrow at hk
    split at hk <;> exact .inl hk

/-- Putting nodes on lists makes nodes ready only if their degree is low. -/
theorem Ready.foldl_enlist (nodes : List Nat) (h : c.Ready) : (nodes.foldl Coloring.enlist c).Ready := by
  induction nodes generalizing c with
  | nil => exact h
  | cons n nodes ih =>
    refine ih ?_
    unfold Coloring.enlist
    split
    · exact h.of_lists rfl rfl fun k hk => .inl hk
    · rename_i hlow
      split
      · exact h.of_lists rfl rfl fun k hk => .inl hk
      · refine h.of_lists rfl rfl fun k hk => ?_
        rcases (contains_insert_iff _ n k).1 hk with hk | rfl
        · exact .inl hk
        · simp only [isSignificant, decide_eq_true_eq, not_le] at hlow
          exact .inr hlow

/-! ## One step -/

/-- What every step keeps of a graph that is easy to colour. -/
structure Easy (c : Coloring) : Prop where
  colors : c.colorCount = c.budget.size
  measured : c.Measured []
  ready : c.Ready
  sparse : c.graph.Sparse c.colorCount c.InGraph
  roomy : c.Roomy

/-- A change of lists keeps the graph easy. -/
theorem Easy.of_core (h : c.Easy) (hcore : SameCore c c') (hdegree : c'.degree = c.degree) (hready : c'.Ready) :
    c'.Easy where
  colors := hcore.colorCount.trans (h.colors.trans (congrArg _ hcore.budget.symm))
  measured := h.measured.of_core hcore hdegree
  ready := hready
  sparse := by
    rw [hcore.graph, hcore.colorCount]
    exact h.sparse.mono fun n hn => ⟨hcore.size ▸ hn.1, hcore.stacked ▸ hn.2.1, hcore.merged ▸ hn.2.2⟩
  roomy := h.roomy.of_core hcore

/-- Giving up copies keeps the graph easy. -/
theorem Easy.freezeMoves (h : c.Easy) (u : Nat) : (c.freezeMoves u).Easy :=
  h.of_core (sameCore_freezeMoves c u) (degree_freezeMoves c u) (h.ready.freezeMoves u)

/-- Releasing a node keeps the graph easy. -/
theorem Easy.release (h : c.Easy) (n : Nat) : (c.release n).Easy :=
  h.of_core (sameCore_release c n) (lists_release n).2.2 (h.ready.release n)

variable {graph : Interference} {n nodes : Nat} {budget : RegisterSet}

/-- Taking a node that is ready keeps the graph easy. -/
theorem Sound.easy_simplify (h : c.Sound) (he : c.Easy) (hn : c.simplifyList.contains n = true) :
    (c.simplify n).Easy := by
  have hfree := h.lists.simplify_free n hn
  have hvirtual : Node.isPhysical n = false := decide_eq_false (Nat.not_lt.2 hfree.virtual)
  have htaken := h.taken hn
  have hlt : ∀ t ∈ ((c.taken n).adjacent n).toList, t < (c.taken n).degree.size :=
    fun t ht => (htaken.mem_adjacent_spec ht).1
  obtain ⟨hcore, -⟩ := htaken.lists.foldl_lowerDegree _ h.colors fun t ht => htaken.mem_adjacent_spec ht
  have hfew : (c.around n).card < c.colorCount := by
    have hlow := he.ready n hvirtual hn
    rwa [he.measured.free n hfree, if_neg List.not_mem_nil, Nat.add_zero] at hlow
  have hready : (c.taken n).Ready := he.ready.of_lists rfl rfl fun k hk => .inl ((contains_erase_iff _ n k).1 hk).1
  refine ⟨hcore.colorCount.trans (he.colors.trans (congrArg _ hcore.budget.symm)), h.measured_simplify he.measured hn, hready.foldl_lowerDegree _ h.colors hlt, ?_,
    (he.roomy.taken h.classes hfree hfew).of_core hcore⟩
  change (((c.taken n).adjacent n).toList.foldl Coloring.lowerDegree (c.taken n)).graph.Sparse
    (((c.taken n).adjacent n).toList.foldl Coloring.lowerDegree (c.taken n)).colorCount _
  rw [hcore.graph, hcore.colorCount]
  refine he.sparse.mono fun k hk => ⟨hcore.size ▸ hk.1, ?_, hcore.merged ▸ hk.2.2⟩
  · have huntaken := hcore.stacked ▸ hk.2.1
    change (c.stacked.insert n).contains k = false at huntaken
    rw [NatSet.contains_insert, Bool.or_eq_false_iff] at huntaken
    exact huntaken.1

/-- Merging nodes that pass the test keeps the graph easy. -/
theorem Easy.merge (h : c.Easy) (hc : c.Classes) (hcolors : 0 < c.colorCount)
    (hw : c.Worklists fun k => (False ∨ k = u) ∨ k = v) (hm : c.Mergeable u v) (hmay : c.mayMerge u v = true)
    (hu : c.simplifyList.contains u = false) (hv : c.simplifyList.contains v = false) : (c.merge u v).Easy := by
  obtain ⟨g, nodes, hjoin, hnodes, hcore, -⟩ := merge_spec hc hcolors hw hm hu hv
  have haround : ∀ t, t ∈ nodes ↔ t ∈ c.around v := fun t => (hnodes t).trans mem_around.symm
  refine ⟨hcore.colorCount.trans (h.colors.trans (congrArg _ hcore.budget.symm)),
    h.measured.merge hc hcolors hw hm hu hv, h.ready.merge hc hcolors hw hm hu hv, ?_,
    (h.roomy.merge hc hm hjoin haround).of_core hcore⟩
  rw [hcore.graph, hcore.colorCount]
  refine (h.measured.sparse_merge hc hm hmay hjoin haround h.sparse).mono fun n hn => ?_
  have hmerged := hcore.merged ▸ hn.2.2
  change (c.merged.insert v).contains n = false at hmerged
  rw [NatSet.contains_insert, Bool.or_eq_false_iff, beq_eq_false_iff_ne] at hmerged
  exact ⟨⟨hcore.size ▸ hn.1, hcore.stacked ▸ hn.2.1, hmerged.1⟩, hmerged.2.symm⟩

theorem Sound.easy_tryMerge {m : Nat} (h : c.Sound) (he : c.Easy) (hends : c.Ends m u v) :
    ((c.unpend m).tryMerge m u v).Easy := by
  have hcore := sameCore_unpend c m
  have he₁ : (c.unpend m).Easy := he.of_core hcore rfl (he.ready.of_lists rfl rfl fun _ hk => .inl hk)
  unfold Coloring.tryMerge
  split
  · exact he₁.release u
  · rename_i huv
    split
    · exact (he₁.release u).release v
    · rename_i hapart
      simp only [Bool.or_eq_true, not_or, Bool.not_eq_true] at hapart
      split
      · rename_i hmay
        exact (he₁.merge (h.classes.of_core hcore) h.colors (h.unpend hends)
          (hends.mergeable huv hapart.1 hapart.2) hmay hends.unready.1 hends.unready.2).release u
      · exact he₁.of_core (by constructor <;> rfl) rfl (he₁.ready.of_lists rfl rfl fun _ hk => .inl hk)

/-- Giving up the copies of a node of low degree keeps the graph easy. -/
theorem Sound.easy_freeze (h : c.Sound) (he : c.Easy) (hn : c.freezeList.contains n = true) : (c.freeze n).Easy := by
  have hready : ({ c with
      freezeList := c.freezeList.erase n
      simplifyList := c.simplifyList.insert n } : Coloring).Easy := by
    refine he.of_core (by constructor <;> rfl) rfl (he.ready.of_lists rfl rfl fun k hk => ?_)
    rcases (contains_insert_iff _ n k).1 hk with hk | rfl
    · exact .inl hk
    · exact .inr (h.lists.low k hn id)
  exact hready.freezeMoves n

/-- No node of an easy graph is taken in the hope of a colour: when no other step is left, all virtual nodes of the
graph have a high degree, which is more neighbours than a sparse graph allows for all of them. -/
theorem Sound.spillCandidate?_of_easy (h : c.Sound) (hcov : c.Covered) (he : c.Easy)
    (hsimplify : c.simplifyList.min? = none) (hfreeze : c.freezeList.min? = none) : c.spillCandidate? = none := by
  by_contra hsome
  obtain ⟨n, hn⟩ := Option.ne_none_iff_exists'.1 hsome
  have hfree := h.lists.spill_free n (contains_of_spillCandidate? hn)
  have hmem : ∀ k, k ∈ (Finset.range c.degree.size).filter c.InGraph ↔ c.InGraph k := fun k => by
    rw [Finset.mem_filter, Finset.mem_range]
    exact and_iff_right_of_imp And.left
  obtain ⟨k, hk, hvirtual, hfew⟩ := he.sparse ((Finset.range c.degree.size).filter c.InGraph)
    (fun k hk => (hmem k).1 hk)
    ⟨n, (hmem n).2 ⟨hfree.known, hfree.untaken, hfree.unmerged⟩, decide_eq_false (Nat.not_lt.2 hfree.virtual)⟩
  obtain ⟨hknown, huntaken, hunmerged⟩ := (hmem k).1 hk
  have hkfree : c.Free k := ⟨by simpa [Node.isPhysical] using hvirtual, hknown, hunmerged, huntaken⟩
  have hnone : ∀ {s : NatSet}, s.min? = none → ¬ s.contains k = true := fun hs hin =>
    Bool.noConfusion ((NatSet.contains_eq_false_of_min? hs k).symm.trans hin)
  have hspill : c.spillList.contains k = true :=
    ((hcov k hkfree).resolve_left (hnone hsimplify)).resolve_left (hnone hfreeze)
  have hhigh := h.lists.high k hspill
  rw [he.measured.free k hkfree, if_neg List.not_mem_nil, Nat.add_zero] at hhigh
  refine absurd (hhigh.trans (Finset.card_le_card fun x hx => ?_)) (Nat.not_le.2 hfew)
  obtain ⟨hadj, hx⟩ := mem_around.1 hx
  refine Finset.mem_filter.2 ⟨(hmem x).2 ⟨?_, hx⟩, hadj⟩
  rw [← h.classes.size_graph]
  exact h.classes.simple.bound (h.classes.simple.symm hadj)

theorem Sound.easy_of_step (h : c.Sound) (hcov : c.Covered) (he : c.Easy) (hs : c.step? = some c') : c'.Easy := by
  unfold step? at hs
  split at hs
  · rename_i n hn
    obtain rfl := Option.some.inj hs
    exact h.easy_simplify he (NatSet.contains_of_min? hn)
  · rename_i hsimplify
    split at hs
    · rename_i m hm
      obtain rfl := Option.some.inj hs
      obtain ⟨hends, hends'⟩ := h.ends (.inl (NatSet.contains_of_min? hm))
      rw [coalesce_eq]
      split
      · exact h.easy_tryMerge he hends'
      · exact h.easy_tryMerge he hends
    · split at hs
      · rename_i n hn
        obtain rfl := Option.some.inj hs
        exact h.easy_freeze he (NatSet.contains_of_min? hn)
      · rename_i hfreeze
        rw [h.spillCandidate?_of_easy hcov he hsimplify hfreeze] at hs
        cases hs

/-! ## The whole run -/

theorem Sound.easy_runWithin (limit : Nat) (h : c.Sound) (hcov : c.Covered) (he : c.Easy) :
    (runWithin limit c).Easy := by
  induction limit generalizing c with
  | zero => exact he
  | succ limit ih =>
    rw [runWithin]
    split
    · rename_i next hs
      exact ih (sound_of_step h hs).1 (h.descends_of_step hcov hs).1.covered (h.easy_of_step hcov he hs)
    · exact he

section

variable (mf : MachineFunction) (hg : Interference.Built budget nodes graph) (hnodes : Node.firstVirtual ≤ nodes)
    (hbudget : 0 < budget.size) (hred : graph.Reducible budget.size (Finset.range graph.neighbours.size))

include mf hg hnodes hbudget hred

theorem easy_start : (start mf budget graph).Easy := by
  obtain ⟨-, hcore⟩ := sound_start mf hg hnodes hbudget
  refine ⟨hcore.colorCount.trans (congrArg RegisterSet.size hcore.budget.symm), measured_start mf, ?_, ?_, fun l n l' hstack => ?_⟩
  · rw [start_eq]
    exact .foldl_enlist _ fun n _ hn => Bool.noConfusion ((NatSet.contains_empty n).symm.trans hn)
  · rw [hcore.graph, hcore.colorCount]
    refine hred.sparse.mono fun n hn => Finset.mem_range.2 ?_
    exact (hcore.size ▸ hn.1).trans_eq Array.size_ofFn
  · rw [hcore.stack] at hstack
    cases l <;> cases hstack

theorem easy_run : (start mf budget graph).run.Easy := by
  obtain ⟨hstart, -⟩ := sound_start mf hg hnodes hbudget
  unfold Coloring.run
  exact hstart.easy_runWithin _ (covered_start mf hg hnodes hbudget) (easy_start mf hg hnodes hbudget hred)

end

/-- A node on the stack that has room for a colour gets one. -/
theorem Roomy.assignColors {c₀ : Coloring} (function : String) (hroomy : c₀.Roomy) (hclasses : c₀.Classes)
    (hcolors : c₀.colorCount ≤ c₀.budget.size) (stack : List Nat) :
    ∀ (before : List Nat) (spilled : NatSet) (c : Coloring), c₀.stack = before ++ stack → SamePlan c₀ c →
      c.Colored stack → ∃ c', Coloring.assignColors function stack spilled c = .ok (spilled, c') := by
  induction stack with
  | nil => exact fun _ _ c _ _ _ => ⟨c, rfl⟩
  | cons n rest ih =>
    intro before spilled c hstack hplan hcolored
    have hsome : ∃ r, c.budget.lowestOutside? (c.usedColors n) = some r := by
      by_contra hnone
      obtain ⟨near, hnear, hw⟩ := hroomy before n rest hstack
      -- Every register of the budget is the colour of one of few nodes.
      have hused : c.budget.toList ⊆ near.filterMap fun x => c.colorOf? (c₀.aliasOf x) := by
        intro r hr
        have hfull : (c.usedColors n).contains r = true := by
          by_contra hfree
          refine hnone (Option.isSome_iff_exists.1 (List.find?_isSome.2 ⟨r, hr, ?_⟩))
          simpa using hfree
        obtain ⟨w, hadj, hcolor⟩ := contains_usedColors.1 hfull
        rw [hplan.aliasOf] at hcolor
        rcases hw w (hplan.graph ▸ hadj) with hrest | ⟨x, hx, hwx⟩
        · have hvirtual := (hclasses.stacked_ok _ ((hclasses.mem_stack _).1 (by simp [hstack, hrest] :
            c₀.aliasOf w ∈ c₀.stack))).1
          rw [colorOf?, if_neg (by simpa [Node.isPhysical] using hvirtual),
            hcolored.waiting _ (List.mem_cons_of_mem n hrest)] at hcolor
          cases hcolor
        · exact List.mem_filterMap.2 ⟨x, hx, hwx ▸ hcolor⟩
      have hnodup : c.budget.toList.Nodup := (List.nodup_finRange _).map (fun _ _ h => by injection h) |>.filter _
      have hcount := (hnodup.subperm hused).length_le.trans (List.length_filterMap_le _ _)
      have hsize : c.budget.size = c₀.budget.size := by rw [hplan.budget]
      rw [RegisterSet.size] at hsize
      omega
    obtain ⟨r, hr⟩ := hsome
    have hnext := ih (before ++ [n]) spilled { c with stacked := c.stacked.erase n, colors := c.colors.setIfInBounds n (some r) }
      (by simp [hstack]) (hplan.trans (by constructor <;> simp)) (.color hclasses hplan hstack hcolored hr)
    rw [Coloring.assignColors]
    dsimp only
    rw [usedColors_stacked, hr]
    exact hnext

end Coloring

namespace MachineEdit

open Edits

variable {mf : MachineFunction} {budget : RegisterSet} {l : Liveness} {g : Interference}

/-- A round that gives no node up ends with registers. -/
theorem run_colorRound (hl : Liveness.ofFunction mf budget = .ok l) (hg : Interference.ofFunction mf budget l = .ok g)
    {c : Coloring} {registers : List Register}
    (hcolors : Coloring.assignColors mf.name (Coloring.start mf budget g).run.stack .empty
      (Coloring.start mf budget g).run = .ok (.empty, c)) (hassign : c.assignment mf.name = .ok registers) :
    (colorRound budget).run mf = (.ok (.inl (registers, c.graph)), mf) := by
  have hget : (get : MachineEdit MachineFunction).run mf = (.ok mf, mf) := rfl
  unfold colorRound
  rw [run_ask_bind (Liveness.ofFunction · budget) hl, run_ask_bind (Interference.ofFunction · budget l) hg, run_bind,
    hget]
  dsimp only
  generalize (Coloring.start mf budget g).run = c₀ at hcolors ⊢
  rw [run_ask_bind (fun mf => Coloring.assignColors mf.name c₀.stack .empty c₀) hcolors]
  dsimp only
  rw [if_pos (show NatSet.empty.isEmpty = true from rfl), run_ask_bind (fun mf => c.assignment mf.name) hassign]
  rfl

/-- A round with a reducible graph finds registers. -/
theorem colorRound_of_reducible (hbudget : 0 < budget.size) (hl : Liveness.ofFunction mf budget = .ok l)
    (hg : Interference.ofFunction mf budget l = .ok g)
    (hred : g.Reducible budget.size (Finset.range g.neighbours.size)) :
    ∃ registers graph, (colorRound budget).run mf = (.ok (.inl (registers, graph)), mf) := by
  obtain ⟨hbuilt, -, -⟩ := Interference.ofFunction_spec (Liveness.sound_of_ofFunction hl) hg
  have hnodes : Node.firstVirtual ≤ Interference.nodeCount mf := Nat.le_add_right _ _
  obtain ⟨hrun, -⟩ := Coloring.sound_run mf hbuilt hnodes hbudget
  have heasy := Coloring.easy_run mf hbuilt hnodes hbudget hred
  obtain ⟨c, hcolors⟩ := heasy.roomy.assignColors mf.name hrun.classes heasy.colors.le _ [] .empty _ rfl (.refl _)
    (hrun.classes.colored _)
  obtain ⟨registers, hassign⟩ := Coloring.assignment_of_assignColors mf hbuilt hnodes hbudget hcolors rfl
  exact ⟨registers, c.graph, run_colorRound hl hg hcolors hassign⟩

/-- **Merging copies never costs a spill.** The budget has a register, and its limit allows a round. If the interference
graph of the first round can be reduced to its physical registers by removing virtual nodes that have fewer neighbours
left than the budget has registers, then allocation ends with this round and gives no register up, whatever copies there
are. -/
theorem allocate_of_reducible (mf : MachineFunction) (budget : RegisterSet) (maxRounds : Option Nat) (l : Liveness)
    (g : Interference) (hempty : budget.isEmpty = false) (hcap : maxRounds ≠ some 0)
    (hl : Liveness.ofFunction mf budget = .ok l) (hg : Interference.ofFunction mf budget l = .ok g)
    (hred : g.Reducible budget.size (Finset.range g.neighbours.size)) :
    ∃ a mf', (allocate budget maxRounds).run mf = (.ok a, mf') ∧ a.rounds = 1 ∧ a.spilled = 0 := by
  have hbudget := RegisterSet.size_pos hempty
  obtain ⟨registers, graph, hround⟩ := colorRound_of_reducible hbudget hl hg hred
  obtain ⟨coalesced, mf', hassign⟩ :
      ∃ coalesced mf', (applyAssignment registers.toArray).run mf = (.ok coalesced, mf') := by
    have htotal := @applyAssignment_total mf (fun _ => False) registers (counted_of_ofFunction hl hg)
      (length_of_colorRound hbudget hround)
    unfold FailsOnly at htotal
    rcases hrun : (applyAssignment registers.toArray).run mf with ⟨r, mf'⟩
    rw [hrun] at htotal
    cases r with
    | ok coalesced => exact ⟨coalesced, mf', rfl⟩
    | error e => exact (htotal e rfl).elim
  have hlimit : ∀ plain, ∃ limit, maxRounds.getD (plain + 2) = limit + 1 := by
    intro plain
    cases maxRounds with
    | none => exact ⟨plain + 1, rfl⟩
    | some cap => exact ⟨cap - 1, (Nat.sub_add_cancel (Nat.pos_of_ne_zero fun h => hcap (h ▸ rfl))).symm⟩
  obtain ⟨limit, hlimit⟩ := hlimit ((List.range mf.vregCount).countP fun v => !mf.spillTemps.contains v)
  have hget : (get : MachineEdit MachineFunction).run mf = (.ok mf, mf) := rfl
  refine ⟨⟨1, 0, coalesced, registers, graph.edges⟩, mf', ?_, rfl, rfl⟩
  unfold allocate
  rw [run_bind, hget]
  dsimp only
  rw [hempty, if_neg Bool.false_ne_true, hlimit, allocateWithin, run_bind, hround]
  dsimp only
  rw [run_bind, hassign]
  rfl

/-- A function that copies a value and uses both. -/
def copiedValue : MachineFunction :=
  { name := "f", isMain := false, returnsValue := true, vregCount := 2
    blocks := #[{ label := "f_b0", loopDepth := 0, insts := [
      .move (.virtual 0) (.immediate 1), .move (.virtual 1) (.virtual 0),
      .binary .addu .v0 (.virtual 0) (.virtual 1), .ret true] }] }

/-- One register is enough for a value and its copy. -/
theorem allocate_of_reducible_copiedValue :
    ∃ l g, Liveness.ofFunction copiedValue AllocatedRun.oneRegister = .ok l ∧
      Interference.ofFunction copiedValue AllocatedRun.oneRegister l = .ok g ∧ g.moves = #[(33, 32)] ∧
      g.Reducible 1 (Finset.range g.neighbours.size) ∧
      ∃ a mf', (allocate AllocatedRun.oneRegister none).run copiedValue = (.ok a, mf') ∧
        a.rounds = 1 ∧ a.spilled = 0 := by
  have hl : Liveness.ofFunction copiedValue AllocatedRun.oneRegister = .ok (AllocatedRun.oneBlock (3 <<< 32)) := by
    cbv
  have hg : Interference.ofFunction copiedValue AllocatedRun.oneRegister (AllocatedRun.oneBlock (3 <<< 32)) =
      .ok { neighbours := Array.replicate 34 .empty, loopWeight := Array.replicate 34 0, moves := #[(33, 32)] } := by
    with_unfolding_all rfl
  have hred : Interference.Reducible
      { neighbours := Array.replicate 34 .empty, loopWeight := Array.replicate 34 0, moves := #[(33, 32)] } 1
      (Finset.range 34) := by
    refine .remove (n := 33) (by decide) rfl (by decide) (.remove (n := 32) (by decide) rfl (by decide) (.done ?_))
    decide
  exact ⟨_, _, hl, hg, rfl, hred, allocate_of_reducible copiedValue AllocatedRun.oneRegister none _ _ (by decide)
    (by decide) hl hg hred⟩

end MachineEdit

end SsaCompiler
