import SsaCompiler.Proofs.Machine.FinishedColoring

/-!
# Degrees count neighbours

The colouring machine keeps degrees by counting up and down. A node that is taken or merged leaves the graph at once,
and its neighbours learn of it one after the other; the list of those that still count it is the difference between
degree and number of neighbours (`Measured`). No step leaves such a difference behind, so the degree of a node that is
in the graph is the number of its neighbours there (`Sound.measured_of_step`).
-/

set_option autoImplicit false

namespace SsaCompiler

namespace Coloring

variable {c c' : Coloring} {waiting : List Nat}

/-- The neighbours of a node that are in the graph. -/
def around (c : Coloring) (n : Nat) : Finset Nat := (c.adjacent n).toList.toFinset

variable {n u : Nat}

variable {t v : Nat}

/-- The neighbours of a node that are neither taken nor merged. -/
theorem mem_around : t ∈ c.around n ↔ c.graph.adjacent n t = true ∧
    c.stacked.contains t = false ∧ c.merged.contains t = false :=
  List.mem_toFinset.trans mem_adjacent

/-- The neighbours are listed once each. -/
theorem card_around (c : Coloring) (n : Nat) : (c.around n).card = (c.adjacent n).toList.length :=
  List.toFinset_card_of_nodup (NatSet.nodup_toList _)

/-- The neighbours of a node depend on the core only. -/
theorem SameCore.around (hcore : SameCore c c') (n : Nat) : c'.around n = c.around n := by
  ext t
  rw [mem_around, mem_around, hcore.graph, hcore.stacked, hcore.merged]

/-- The degree of a free node is the number of its neighbours in the graph, and one more while the node is to learn that
one of them left. The degree of a physical register is out of reach. -/
structure Measured (c : Coloring) (waiting : List Nat) : Prop where
  free : ∀ n, c.Free n → c.degreeOf n = (c.around n).card + if n ∈ waiting then 1 else 0
  physical : ∀ n, n < c.degree.size → Node.isPhysical n = true → c.colorCount ≤ c.degreeOf n

/-- States with the same core and the same degrees are measured alike. -/
theorem Measured.of_core (h : c.Measured waiting) (hcore : SameCore c c') (hdegree : c'.degree = c.degree) :
    c'.Measured waiting := by
  have hdeg : ∀ n, c'.degreeOf n = c.degreeOf n := fun n => by rw [degreeOf, degreeOf, hdegree]
  refine ⟨fun n hn => ?_, fun n hlt hn => ?_⟩
  · rw [hdeg, hcore.around]
    exact h.free n ⟨hn.virtual, hcore.size ▸ hn.known, hcore.merged ▸ hn.unmerged, hcore.stacked ▸ hn.untaken⟩
  · rw [hdeg, hcore.colorCount]
    exact h.physical n (hcore.size ▸ hlt) hn

/-! ## Counting down -/

/-- Lowering the degree of a physical register does nothing. -/
theorem lowerDegree_of_isPhysical (hn : Node.isPhysical n = true) : c.lowerDegree n = c := if_pos hn

/-- A node learns that a neighbour left. -/
theorem Measured.lowerDegree {t : Nat} (h : c.Measured (t :: waiting)) (ht : t ∉ waiting) (hlt : t < c.degree.size) :
    (c.lowerDegree t).Measured waiting := by
  have hcore := sameCore_lowerDegree c t
  have hfree : ∀ n, (c.lowerDegree t).Free n → c.Free n := fun n hn =>
    ⟨hn.virtual, hcore.size ▸ hn.known, hcore.merged ▸ hn.unmerged, hcore.stacked ▸ hn.untaken⟩
  cases hphys : Node.isPhysical t with
  | true =>
    rw [lowerDegree_of_isPhysical hphys]
    refine ⟨fun n hn => ?_, h.physical⟩
    have hnt : n ≠ t := by
      rintro rfl
      exact absurd (of_decide_eq_true hphys) (Nat.not_lt.2 hn.virtual)
    rw [h.free n hn]
    simp [hnt]
  | false =>
    refine ⟨fun n hn => ?_, fun n hn hnphys => ?_⟩
    · rw [degreeOf_lowerDegree hphys hlt, hcore.around]
      have hcount := h.free n (hfree n hn)
      by_cases hnt : n = t
      · subst hnt
        simp only [List.mem_cons, true_or, if_true] at hcount
        simp only [if_true, ht, if_false]
        omega
      · simp only [List.mem_cons, hnt, false_or] at hcount
        rw [if_neg hnt, hcount]
    · have hnt : n ≠ t := by
        rintro rfl
        exact Bool.noConfusion (hphys.symm.trans hnphys)
      rw [degreeOf_lowerDegree hphys hlt, if_neg hnt, hcore.colorCount]
      exact h.physical n (hcore.size ▸ hn) hnphys

/-- All nodes learn that a neighbour left. -/
theorem Measured.foldl_lowerDegree (nodes : List Nat) (h : c.Measured nodes) (hnodup : nodes.Nodup)
    (hlt : ∀ t ∈ nodes, t < c.degree.size) : (nodes.foldl Coloring.lowerDegree c).Measured [] := by
  induction nodes generalizing c with
  | nil => exact h
  | cons t nodes ih =>
    obtain ⟨ht, hnodup'⟩ := List.nodup_cons.1 hnodup
    refine ih (h.lowerDegree ht (hlt t List.mem_cons_self)) hnodup' fun k hk => ?_
    rw [(sameCore_lowerDegree c t).size]
    exact hlt k (List.mem_cons_of_mem _ hk)

/-- A node that is taken is still counted by its neighbours. -/
theorem Measured.taken (h : c.Measured []) (hg : c.graph.Simple) (hn : c.Free n) :
    (c.taken n).Measured ((c.taken n).adjacent n).toList := by
  refine ⟨fun k hk => ?_, h.physical⟩
  have htaken : ∀ t, (c.taken n).stacked.contains t = false ↔ c.stacked.contains t = false ∧ n ≠ t := fun t => by
    change (c.stacked.insert n).contains t = false ↔ _
    rw [NatSet.contains_insert, Bool.or_eq_false_iff, beq_eq_false_iff_ne]
  obtain ⟨hkfree, hkn⟩ := (htaken k).1 hk.untaken
  have hcount := h.free k ⟨hk.virtual, hk.known, hk.unmerged, hkfree⟩
  rw [if_neg List.not_mem_nil, Nat.add_zero] at hcount
  have haround : (c.taken n).around k = (c.around k).erase n := by
    ext t
    rw [Finset.mem_erase, mem_around, mem_around, htaken]
    exact ⟨fun ⟨ha, ⟨hs, hne⟩, hm⟩ => ⟨hne.symm, ha, hs, hm⟩, fun ⟨hne, ha, hs, hm⟩ => ⟨ha, ⟨hs, hne.symm⟩, hm⟩⟩
  have hmem : k ∈ ((c.taken n).adjacent n).toList ↔ n ∈ c.around k := by
    rw [mem_adjacent, mem_around]
    exact ⟨fun ⟨ha, _, _⟩ => ⟨hg.symm ha, hn.untaken, hn.unmerged⟩, fun ⟨ha, _, _⟩ => ⟨hg.symm ha, hk.untaken, hk.unmerged⟩⟩
  change c.degreeOf k = _
  rw [hcount, haround]
  by_cases hin : n ∈ c.around k
  · rw [if_pos (hmem.2 hin), Finset.card_erase_add_one hin]
  · rw [if_neg fun hk' => hin (hmem.1 hk'), Finset.erase_eq_of_notMem hin, Nat.add_zero]

/-- After a node is taken and its neighbours have learned it, degrees count neighbours. -/
theorem Sound.measured_simplify (h : c.Sound) (hm : c.Measured []) (hn : c.simplifyList.contains n = true) :
    (c.simplify n).Measured [] :=
  (hm.taken h.classes.simple (h.lists.simplify_free n hn)).foldl_lowerDegree _ (NatSet.nodup_toList _)
    fun _ ht => ((h.taken hn).mem_adjacent_spec ht).1

/-! ## Counting up -/

/-- The degrees after a new edge between known nodes is added. -/
theorem degreeOf_connect_of_not_adjacent (htu : t ≠ u) (hadj : c.graph.adjacent t u = false) (ht : t < c.degree.size)
    (hu : u < c.degree.size) (k : Nat) : (c.connect t u).degreeOf k =
      c.degreeOf k + if (k = t ∨ k = u) ∧ Node.isPhysical k = false then 1 else 0 := by
  have hraise : ∀ (degree : Array Nat) (n : Nat), n < degree.size →
      (if Node.isPhysical n then degree else degree.modify n (· + 1)).getD k 0 =
        degree.getD k 0 + if k = n ∧ Node.isPhysical k = false then 1 else 0 := by
    intro degree n hn
    cases hphys : Node.isPhysical n with
    | true =>
      rw [if_pos rfl, if_neg, Nat.add_zero]
      rintro ⟨rfl, hk⟩
      exact Bool.noConfusion (hphys.symm.trans hk)
    | false =>
      rw [if_neg Bool.false_ne_true, getD_modify]
      by_cases hkn : k = n
      · rw [if_pos ⟨hkn.symm, hn⟩, if_pos ⟨hkn, hkn ▸ hphys⟩]
      · rw [if_neg fun h => hkn h.1.symm, if_neg fun h => hkn h.1, Nat.add_zero]
  have hsize : (if Node.isPhysical t then c.degree else c.degree.modify t (· + 1)).size = c.degree.size := by
    split <;> simp
  unfold connect
  rw [if_neg (by simp [htu, hadj])]
  change (if Node.isPhysical u then _ else _ : Array Nat).getD k 0 = _
  rw [hraise _ u (hsize.symm ▸ hu), hraise _ t ht, degreeOf, Nat.add_assoc]
  congr 1
  by_cases hkt : k = t
  · have hku : k ≠ u := fun hku => htu (hkt.symm.trans hku)
    simp [hkt, htu]
  · simp [hkt]

/-- A new edge between nodes of the graph makes each a neighbour of the other. -/
theorem card_around_connect (hg : c.graph.Simple) (hsize : c.graph.neighbours.size = c.degree.size) (htu : t ≠ u)
    (hadj : c.graph.adjacent t u = false) (ht : t < c.degree.size) (hu : u < c.degree.size)
    (htgraph : c.stacked.contains t = false ∧ c.merged.contains t = false)
    (hugraph : c.stacked.contains u = false ∧ c.merged.contains u = false) (k : Nat) :
    ((c.connect t u).around k).card = (c.around k).card + if k = t ∨ k = u then 1 else 0 := by
  have hcore := sameCore_connect c t u
  have hjoin : JoinedTo c.graph (c.connect t u).graph u [t] := joinedTo_connect hg htu (hsize ▸ ht) (hsize ▸ hu)
  have hmem : ∀ x, x ∈ (c.connect t u).around k ↔ x ∈ c.around k ∨ (k = u ∧ x = t) ∨ (k = t ∧ x = u) := by
    intro x
    rw [mem_around, mem_around, hcore.stacked, hcore.merged, hjoin.adjacent, List.mem_singleton, List.mem_singleton]
    constructor
    · rintro ⟨ha | hnew | hnew, hs, hm⟩
      · exact .inl ⟨ha, hs, hm⟩
      · exact .inr (.inl hnew)
      · exact .inr (.inr hnew.symm)
    · rintro (⟨ha, hs, hm⟩ | ⟨rfl, rfl⟩ | ⟨rfl, rfl⟩)
      · exact ⟨.inl ha, hs, hm⟩
      · exact ⟨.inr (.inl ⟨rfl, rfl⟩), htgraph⟩
      · exact ⟨.inr (.inr ⟨rfl, rfl⟩), hugraph⟩
  -- The two ends are alike: each gets the other one.
  have hends : ∀ x, ((k = u ∧ x = t) ∨ (k = t ∧ x = u)) →
      ((c.connect t u).around k).card = (c.around k).card + 1 := by
    intro x hx
    have hnew : x ∉ c.around k := by
      intro hin
      have hkx := (mem_around.1 hin).1
      rcases hx with ⟨rfl, rfl⟩ | ⟨rfl, rfl⟩
      · exact Bool.noConfusion (hadj.symm.trans (hg.symm hkx))
      · exact Bool.noConfusion (hadj.symm.trans hkx)
    have haround : (c.connect t u).around k = insert x (c.around k) := by
      ext y
      rw [hmem, Finset.mem_insert]
      constructor
      · rintro (hy | hy)
        · exact .inr hy
        · refine .inl ?_
          rcases hx with ⟨hk, rfl⟩ | ⟨hk, rfl⟩ <;> rcases hy with ⟨hk', rfl⟩ | ⟨hk', rfl⟩
          · rfl
          · exact absurd (hk'.symm.trans hk) htu
          · exact absurd (hk.symm.trans hk') htu
          · rfl
      · rintro (rfl | hy)
        · exact .inr hx
        · exact .inl hy
    rw [haround, Finset.card_insert_of_notMem hnew]
  by_cases hk : k = t ∨ k = u
  · rw [if_pos hk]
    exact hk.elim (fun hkt => hends u (.inr ⟨hkt, rfl⟩)) fun hku => hends t (.inl ⟨hku, rfl⟩)
  · have haround : (c.connect t u).around k = c.around k := by
      ext x
      rw [hmem]
      exact ⟨fun hx => hx.resolve_right fun hx => hk (hx.elim (fun hx => .inr hx.1) fun hx => .inl hx.1), .inl⟩
    rw [haround, if_neg hk, Nat.add_zero]

/-- Adding an edge between nodes of the graph keeps the measure. -/
theorem Measured.connect {t u : Nat} (h : c.Measured waiting) (hg : c.graph.Simple)
    (hsize : c.graph.neighbours.size = c.degree.size) (htu : t ≠ u) (ht : t < c.degree.size) (hu : u < c.degree.size)
    (htgraph : c.stacked.contains t = false ∧ c.merged.contains t = false)
    (hugraph : c.stacked.contains u = false ∧ c.merged.contains u = false) : (c.connect t u).Measured waiting := by
  have hcore := sameCore_connect c t u
  cases hadj : c.graph.adjacent t u with
  | true =>
    have hsame : c.connect t u = c := by
      unfold Coloring.connect
      rw [if_pos (by simp [hadj])]
    rw [hsame]
    exact h
  | false =>
    refine ⟨fun k hk => ?_, fun k hlt hphys => ?_⟩
    · have hvirtual : Node.isPhysical k = false := decide_eq_false (Nat.not_lt.2 hk.virtual)
      have hcount := h.free k
        ⟨hk.virtual, hcore.size ▸ hk.known, hcore.merged ▸ hk.unmerged, hcore.stacked ▸ hk.untaken⟩
      rw [degreeOf_connect_of_not_adjacent htu hadj ht hu, hcount,
        card_around_connect hg hsize htu hadj ht hu htgraph hugraph, Nat.add_right_comm]
      simp only [hvirtual, and_true]
    · rw [hcore.colorCount]
      exact (h.physical k (hcore.size ▸ hlt) hphys).trans (degreeOf_connect htu k).1

/-- The neighbours of a merged node go over to another one and learn that the merged one left. -/
theorem Measured.foldl_join (nodes : List Nat) (h : c.Measured nodes) (hnodup : nodes.Nodup) (hg : c.graph.Simple)
    (hsize : c.graph.neighbours.size = c.degree.size) (hu : u < c.degree.size)
    (hugraph : c.stacked.contains u = false ∧ c.merged.contains u = false)
    (hnodes : ∀ t ∈ nodes, t ≠ u ∧ t < c.degree.size ∧ c.merged.contains t = false ∧ c.stacked.contains t = false) :
    (nodes.foldl (fun c t => (c.connect t u).lowerDegree t) c).Measured [] := by
  induction nodes generalizing c with
  | nil => exact h
  | cons t nodes ih =>
    obtain ⟨htu, hlt, hunmerged, huntaken⟩ := hnodes t List.mem_cons_self
    obtain ⟨ht, hnodup'⟩ := List.nodup_cons.1 hnodup
    have hjoin : JoinedTo c.graph (c.connect t u).graph u [t] := joinedTo_connect hg htu (hsize ▸ hlt) (hsize ▸ hu)
    have hone : SameCore { c with graph := (c.connect t u).graph } ((c.connect t u).lowerDegree t) :=
      (sameCore_connect c t u).trans (sameCore_lowerDegree _ t)
    have hstep := (h.connect hg hsize htu hlt hu ⟨huntaken, hunmerged⟩ hugraph).lowerDegree ht
      ((sameCore_connect c t u).size ▸ hlt)
    refine ih hstep hnodup' (hone.graph ▸ hjoin.simple) ?_ (hone.size ▸ hu) ?_ fun k hk => ?_
    · rw [hone.graph, hone.size]
      exact hjoin.size.trans hsize
    · rw [hone.stacked, hone.merged]
      exact hugraph
    · rw [hone.size, hone.merged, hone.stacked]
      exact hnodes k (List.mem_cons_of_mem _ hk)

/-- Merging changes no degree before the neighbours learn of it. -/
theorem degree_joining (c : Coloring) (u v : Nat) : (c.joining u v).degree = c.degree := by
  change (c.unlist v).degree = c.degree
  unfold Coloring.unlist
  split <;> rfl

/-- Before its neighbours learn that a node is merged, they count it. -/
theorem Measured.joining (h : c.Measured []) (hc : c.Classes) (hw : c.Worklists fun k => (False ∨ k = u) ∨ k = v)
    (hm : c.Mergeable u v) (hv : c.simplifyList.contains v = false) :
    (c.joining u v).Measured ((c.joining u v).adjacent v).toList := by
  obtain ⟨hcore, -, -, hnodes, -⟩ := joining_spec hc hw hm hv
  have hmerged : ∀ t, (c.joining u v).merged.contains t = false ↔ c.merged.contains t = false ∧ v ≠ t := fun t => by
    rw [hcore.merged]
    change (c.merged.insert v).contains t = false ↔ _
    rw [NatSet.contains_insert, Bool.or_eq_false_iff, beq_eq_false_iff_ne]
  have hdeg : ∀ k, (c.joining u v).degreeOf k = c.degreeOf k := fun k => by rw [degreeOf, degreeOf, degree_joining]
  refine ⟨fun k hk => ?_, fun k hlt hphys => ?_⟩
  · obtain ⟨hkfree, hkv⟩ := (hmerged k).1 hk.unmerged
    have hkuntaken : c.stacked.contains k = false := hcore.stacked ▸ hk.untaken
    have hcount := h.free k ⟨hk.virtual, hcore.size ▸ hk.known, hkfree, hkuntaken⟩
    rw [if_neg List.not_mem_nil, Nat.add_zero] at hcount
    have haround : (c.joining u v).around k = (c.around k).erase v := by
      ext t
      rw [Finset.mem_erase, mem_around, mem_around, hmerged, hcore.graph, hcore.stacked]
      constructor
      · rintro ⟨ha, hs, hun, hne⟩
        exact ⟨hne.symm, ha, hs, hun⟩
      · rintro ⟨hne, ha, hs, hun⟩
        exact ⟨ha, hs, hun, hne.symm⟩
    have hmem : k ∈ ((c.joining u v).adjacent v).toList ↔ v ∈ c.around k := by
      rw [hnodes, mem_around]
      exact ⟨fun ha => ⟨hc.simple.symm ha.1, hm.free.untaken, hm.free.unmerged⟩,
        fun ha => ⟨hc.simple.symm ha.1, hkuntaken, hkfree⟩⟩
    rw [hdeg, hcount, haround]
    by_cases hin : v ∈ c.around k
    · rw [if_pos (hmem.2 hin), Finset.card_erase_add_one hin]
    · rw [if_neg fun hk' => hin (hmem.1 hk'), Finset.erase_eq_of_notMem hin, Nat.add_zero]
  · rw [hdeg, hcore.colorCount]
    exact h.physical k (hcore.size ▸ hlt) hphys

/-- Changing lists changes no degree. -/
theorem degree_outgrow (c : Coloring) (u : Nat) : (c.outgrow u).degree = c.degree := by
  unfold Coloring.outgrow
  split <;> rfl

/-- After a merge degrees count neighbours. -/
theorem Measured.merge (h : c.Measured []) (hc : c.Classes) (hcolors : 0 < c.colorCount)
    (hw : c.Worklists fun k => (False ∨ k = u) ∨ k = v) (hm : c.Mergeable u v)
    (hu : c.simplifyList.contains u = false) (hv : c.simplifyList.contains v = false) :
    (c.merge u v).Measured [] := by
  obtain ⟨hcore, hw₂, hsimplify, -, hnodes⟩ := joining_spec hc hw hm hv
  have hsimple : (c.joining u v).graph.Simple := hcore.graph ▸ hc.simple
  have hsize : (c.joining u v).graph.neighbours.size = (c.joining u v).degree.size := by
    rw [hcore.graph, hcore.size]
    exact hc.size_graph
  have hu' : u < (c.joining u v).degree.size := hcore.size ▸ hm.known
  have hugraph : (c.joining u v).stacked.contains u = false ∧ (c.joining u v).merged.contains u = false := by
    rw [hcore.stacked, hcore.merged]
    change c.stacked.contains u = false ∧ (c.merged.insert v).contains u = false
    rw [NatSet.contains_insert, hm.unmerged, Bool.false_or, beq_eq_false_iff_ne]
    exact ⟨hm.untaken, hm.ne.symm⟩
  have hjoined := (h.joining hc hw hm hv).foldl_join _ (NatSet.nodup_toList _) hsimple hsize hu' hugraph
    fun t ht => ⟨(hnodes t ht).1, (hnodes t ht).2.2⟩
  obtain ⟨g, -, -, hw₃, hu₃⟩ := hw₂.foldl_join _ (hcore.colorCount ▸ hcolors) hsimple hsize hu' hnodes
  obtain ⟨hcore₄, -⟩ := outgrow_spec hw₃ (hu₃.trans (hsimplify ▸ hu))
  rw [merge_eq]
  exact hjoined.of_core hcore₄ (degree_outgrow _ u)

/-! ## Every step -/

/-- Giving up copies changes no degree. -/
theorem degree_freezeMoves (c : Coloring) (u : Nat) : (c.freezeMoves u).degree = c.degree := by
  rw [freezeMoves_eq]
  generalize (c.nodeMoves u).toList = moves
  induction moves generalizing c with
  | nil => rfl
  | cons m moves ih =>
    rw [List.foldl_cons, ih]
    unfold freezeMove
    generalize c.graph.moves.getD m (0, 0) = p
    dsimp only
    generalize (if c.aliasOf p.2 = c.aliasOf u then c.aliasOf p.1 else c.aliasOf p.2) = v
    split <;> rfl

/-- Giving up copies keeps the core. -/
theorem sameCore_freezeMoves (c : Coloring) (u : Nat) : SameCore c (c.freezeMoves u) := by
  rw [freezeMoves_eq]
  generalize (c.nodeMoves u).toList = moves
  induction moves generalizing c with
  | nil => exact .refl c
  | cons m moves ih => exact (sameCore_freezeMove u c m).trans (ih _)

theorem Sound.measured_tryMerge {m : Nat} (h : c.Sound) (hm : c.Measured []) (he : c.Ends m u v) :
    ((c.unpend m).tryMerge m u v).Measured [] := by
  have hrelease : ∀ {d : Coloring} (n : Nat), d.Measured [] → (d.release n).Measured [] := fun n hd =>
    hd.of_core (sameCore_release _ n) (lists_release n).2.2
  have hcore := sameCore_unpend c m
  have hm₁ : (c.unpend m).Measured [] := hm.of_core hcore rfl
  unfold Coloring.tryMerge
  split
  · exact hrelease u hm₁
  · rename_i huv
    split
    · exact hrelease v (hrelease u hm₁)
    · rename_i hapart
      simp only [Bool.or_eq_true, not_or, Bool.not_eq_true] at hapart
      split
      · exact hrelease u (hm₁.merge (h.classes.of_core hcore) h.colors (h.unpend he)
          (he.mergeable huv hapart.1 hapart.2) he.unready.1 he.unready.2)
      · exact hm₁.of_core (by constructor <;> rfl) rfl

/-- No step leaves a difference between degrees and numbers of neighbours. -/
theorem Sound.measured_of_step (h : c.Sound) (hm : c.Measured []) (hs : c.step? = some c') : c'.Measured [] := by
  unfold step? at hs
  split at hs
  · rename_i n hn
    obtain rfl := Option.some.inj hs
    exact h.measured_simplify hm (NatSet.contains_of_min? hn)
  · split at hs
    · rename_i m hp
      obtain rfl := Option.some.inj hs
      obtain ⟨hends, hends'⟩ := h.ends (.inl (NatSet.contains_of_min? hp))
      rw [coalesce_eq]
      split
      · exact h.measured_tryMerge hm hends'
      · exact h.measured_tryMerge hm hends
    · have hgive : ∀ {d : Coloring} (n : Nat), d.Measured [] → (d.freezeMoves n).Measured [] := fun n hd =>
        hd.of_core (sameCore_freezeMoves _ n) (degree_freezeMoves _ n)
      split at hs
      · rename_i n hn
        obtain rfl := Option.some.inj hs
        exact hgive n (hm.of_core (by constructor <;> rfl) rfl)
      · rw [Option.map_eq_some_iff] at hs
        obtain ⟨n, hn, rfl⟩ := hs
        exact hgive n (hm.of_core (by constructor <;> rfl) rfl)

/-- Putting nodes on lists keeps the measure. -/
theorem Measured.foldl_enlist (nodes : List Nat) (h : c.Measured waiting) :
    (nodes.foldl Coloring.enlist c).Measured waiting := by
  induction nodes generalizing c with
  | nil => exact h
  | cons n nodes ih =>
    refine ih (h.of_core (sameCore_enlist c n) ?_)
    unfold Coloring.enlist
    split
    · rfl
    · split <;> rfl

/-- No budget has as many registers as a degree without bound. -/
theorem size_le_unbounded (budget : RegisterSet) : budget.size ≤ unbounded :=
  calc budget.size
    _ ≤ Register.all.length := List.length_filter_le _ _
    _ ≤ unbounded := by decide

theorem measured_start (mf : MachineFunction) {budget : RegisterSet} {graph : Interference} :
    (start mf budget graph).Measured [] := by
  rw [start_eq]
  refine .foldl_enlist _ ⟨fun n hn => ?_, fun n hlt hphys => ?_⟩
  · have hvirtual : Node.isPhysical n = false := decide_eq_false (Nat.not_lt.2 hn.virtual)
    have hlt : n < graph.neighbours.size := hn.known.trans_eq Array.size_ofFn
    have haround : (unlisted mf budget graph).around n = (graph.neighbours.getD n .empty).toList.toFinset := by
      ext t
      rw [mem_around, List.mem_toFinset, NatSet.mem_toList]
      change graph.adjacent n t = true ∧ NatSet.empty.contains t = false ∧ NatSet.empty.contains t = false ↔ _
      rw [NatSet.contains_empty]
      exact and_iff_left ⟨rfl, rfl⟩
    rw [haround, List.toFinset_card_of_nodup (NatSet.nodup_toList _), if_neg List.not_mem_nil, Nat.add_zero]
    simp [degreeOf, unlisted, hlt, hvirtual, NatSet.size]
  · have hlt' : n < graph.neighbours.size := hlt.trans_eq Array.size_ofFn
    have hdegree : (unlisted mf budget graph).degreeOf n = unbounded := by
      simp [degreeOf, unlisted, hlt', hphys]
    rw [hdegree]
    exact size_le_unbounded budget

end Coloring

end SsaCompiler
