import SsaCompiler.Proofs.Machine.Merging

/-!
# Taking a graph apart

Every step of the colouring machine keeps the lists and the classes and loses no edge
(`sound_of_step`), hence so does the whole run from the start (`sound_run`). A merge is the only step
that adds edges, and the only one during which a node is busy for long: the node that takes over the
neighbours may outgrow its list until the end.
-/

set_option autoImplicit false

namespace SsaCompiler

namespace Coloring

variable {c c' : Coloring} {busy : Nat → Prop}

/-! ## Edges -/

variable {k t : Nat}

/-- The degrees after an edge is added: those of the two nodes may have grown by one. -/
theorem degreeOf_connect {u : Nat} (htu : t ≠ u) (k : Nat) : c.degreeOf k ≤ (c.connect t u).degreeOf k ∧
      (c.connect t u).degreeOf k ≤ c.degreeOf k + 1 ∧
      (k ≠ t → k ≠ u → (c.connect t u).degreeOf k = c.degreeOf k) := by
  have hraise : ∀ (degree : Array Nat) (n : Nat), ∃ j, j ≤ 1 ∧ (k ≠ n → j = 0) ∧
      (if Node.isPhysical n then degree else degree.modify n (· + 1)).getD k 0 =
        degree.getD k 0 + j := by
    intro degree n
    by_cases hn : Node.isPhysical n = true ∨ ¬ (n = k ∧ n < degree.size)
    · refine ⟨0, Nat.zero_le 1, fun _ => rfl, ?_⟩
      split
      · rfl
      · rw [getD_modify, if_neg (hn.resolve_left (by assumption)), Nat.add_zero]
    · obtain ⟨hphys, hnk⟩ := not_or.1 hn
      refine ⟨1, Nat.le_refl 1, fun hkn => absurd (not_not.1 hnk).1.symm hkn, ?_⟩
      rw [if_neg hphys, getD_modify, if_pos (not_not.1 hnk)]
  unfold connect
  split
  · exact ⟨Nat.le_refl _, Nat.le_succ _, fun _ _ => rfl⟩
  · obtain ⟨i, hi, hit, heq⟩ := hraise c.degree t
    obtain ⟨j, hj, hju, heq'⟩ :=
      hraise (if Node.isPhysical t then c.degree else c.degree.modify t (· + 1)) u
    simp only [degreeOf]
    rw [heq', heq]
    by_cases hkt : k = t
    · have := hju (hkt ▸ htu)
      omega
    · have := hit hkt
      refine ⟨by omega, by omega, fun _ hku => ?_⟩
      have := hju hku
      omega

/-- Adding an edge changes the graph and the degrees only. -/
theorem sameCore_connect (c : Coloring) (t u : Nat) :
    SameCore { c with graph := (c.connect t u).graph } (c.connect t u) := by
  unfold connect
  split
  · constructor <;> rfl
  · constructor <;> try rfl
    dsimp only
    split <;> split <;> simp

/-- Adding an edge leaves lists and copies alone. -/
theorem lists_connect (c : Coloring) (t u : Nat) :
    (c.connect t u).simplifyList = c.simplifyList ∧ (c.connect t u).freezeList = c.freezeList ∧
      (c.connect t u).spillList = c.spillList ∧ (c.connect t u).pendingMoves = c.pendingMoves ∧
      (c.connect t u).activeMoves = c.activeMoves := by
  unfold connect
  split <;> exact ⟨rfl, rfl, rfl, rfl, rfl⟩

/-- The graph after an edge is added. -/
theorem joinedTo_connect {u : Nat} (hg : c.graph.Simple) (htu : t ≠ u) (ht : t < c.graph.neighbours.size)
    (hu : u < c.graph.neighbours.size) : JoinedTo c.graph (c.connect t u).graph u [t] := by
  unfold connect
  split
  · rename_i hcond
    have hadj : c.graph.adjacent t u = true := by simpa [htu] using hcond
    refine ⟨rfl, rfl, hg, fun a b => ⟨.inl, ?_⟩⟩
    rintro (h | ⟨rfl, hb⟩ | ⟨rfl, ha⟩)
    · exact h
    · rw [List.mem_singleton.1 hb]
      exact hg.symm hadj
    · rw [List.mem_singleton.1 ha]
      exact hadj
  · refine ⟨Interference.size_connect _ t u, ?_, hg.connect ht hu, fun a b => ?_⟩
    · unfold Interference.connect
      split <;> rfl
    · change (c.graph.connect t u).adjacent a b = true ↔ _
      rw [Interference.adjacent_connect ht hu, List.mem_singleton, List.mem_singleton]
      tauto

variable {g : Interference} {n : Nat}

theorem JoinedTo.trans {g' g'' : Interference} {u : Nat} {l l' : List Nat} (h : JoinedTo g g' u l)
    (h' : JoinedTo g' g'' u l') : JoinedTo g g'' u (l ++ l') where
  size := h'.size.trans h.size
  moves := h'.moves.trans h.moves
  simple := h'.simple
  adjacent := fun a b => by
    rw [h'.adjacent, h.adjacent, List.mem_append, List.mem_append]
    tauto

/-- Adding an edge changes no copy's being in play. -/
theorem inPlay_connect (c : Coloring) (t u m : Nat) : (c.connect t u).InPlay m ↔ c.InPlay m := by
  obtain ⟨-, -, -, hpending, hactive⟩ := lists_connect c t u
  rw [InPlay, InPlay, hpending, hactive]

/-- Adding an edge changes no node's being related to copies. -/
theorem moveRelated_connect (c : Coloring) (t u k : Nat) : (c.connect t u).moveRelated k = c.moveRelated k :=
  moveRelated_congr (by rw [(sameCore_connect c t u).moveList]) (inPlay_connect c t u)

/-- Adding an edge keeps the lists, its ends being busy. -/
theorem Worklists.connect {u : Nat} (h : c.Worklists fun k => busy k ∨ k = u) (htu : t ≠ u)
    (hmoves : (c.connect t u).graph.moves = c.graph.moves) :
    (c.connect t u).Worklists fun k => (busy k ∨ k = u) ∨ k = t := by
  have hcore := sameCore_connect c t u
  obtain ⟨hsimplify, hfreeze, hspill, -, -⟩ := lists_connect c t u
  have hplay := inPlay_connect c t u
  have hrel := moveRelated_connect c t u
  have halias : ∀ k, (c.connect t u).aliasOf k = c.aliasOf k :=
    aliasOf_congr hcore.merged hcore.mergedInto
  have hfree : ∀ k, c.Free k → (c.connect t u).Free k := fun k hk =>
    ⟨hk.virtual, hcore.size ▸ hk.known, hcore.merged ▸ hk.unmerged, hcore.stacked ▸ hk.untaken⟩
  refine ⟨?_, ?_, ?_, ?_, ?_, ?_, ?_, ?_, ?_, ?_, ?_, ?_⟩
  · exact fun k hk => hfree k (h.simplify_free k (hsimplify ▸ hk))
  · exact fun k hk => hfree k (h.freeze_free k (hfreeze ▸ hk))
  · exact fun k hk => hfree k (h.spill_free k (hspill ▸ hk))
  · rw [hsimplify, hfreeze]
    exact h.simplify_freeze
  · rw [hsimplify, hspill]
    exact h.simplify_spill
  · rw [hfreeze, hspill]
    exact h.freeze_spill
  · intro k hk hb
    rw [hsimplify, hcore.stacked] at hk
    rw [hrel]
    exact h.idle k hk fun hb' => hb (.inl hb')
  · intro k hk hb
    rw [hrel]
    exact h.related k (hfreeze ▸ hk) fun hb' => hb (.inl hb')
  · intro k hk hb
    rw [(degreeOf_connect htu k).2.2 (fun hkt => hb (.inr hkt)) (fun hku => hb (.inl (.inr hku))),
      hcore.colorCount]
    exact h.low k (hfreeze ▸ hk) fun hb' => hb (.inl hb')
  · intro k hk
    rw [hcore.colorCount]
    exact (h.high k (hspill ▸ hk)).trans (degreeOf_connect htu k).1
  · intro m hm e he
    rw [halias, hcore.moveList]
    rw [hmoves] at he
    exact h.listed m ((hplay m).1 hm) e he
  · intro k m hk hkm
    rw [halias, halias, hmoves]
    rw [hcore.merged] at hk
    rw [hcore.moveList] at hkm
    exact h.owned k m hk hkm

/-- Agreement does not look at the graph when both get the same. -/
theorem SameCore.withGraph (h : SameCore { c with graph := g } c') (g' : Interference) :
    SameCore { c with graph := g' } { c' with graph := g' } :=
  { h with graph := rfl }

/-- The neighbours of a merged node become neighbours of the busy node `u`, each losing the merged one
at once. -/
theorem Worklists.foldl_join {u : Nat} (nodes : List Nat) (h : c.Worklists fun k => busy k ∨ k = u)
    (hcolors : 0 < c.colorCount) (hg : c.graph.Simple)
    (hsize : c.graph.neighbours.size = c.degree.size) (hu : u < c.degree.size)
    (hnodes : ∀ t ∈ nodes, t ≠ u ∧ ¬ busy t ∧ t < c.degree.size ∧ c.merged.contains t = false ∧
      c.stacked.contains t = false) : ∃ g, JoinedTo c.graph g u nodes ∧
      SameCore { c with graph := g } (nodes.foldl (fun c t => (c.connect t u).lowerDegree t) c) ∧
      ((nodes.foldl (fun c t => (c.connect t u).lowerDegree t) c).Worklists fun k => busy k ∨ k = u) ∧
      (nodes.foldl (fun c t => (c.connect t u).lowerDegree t) c).simplifyList.contains u =
        c.simplifyList.contains u := by
  induction nodes generalizing c with
  | nil => exact ⟨c.graph, ⟨rfl, rfl, hg, by simp⟩, .refl c, h, rfl⟩
  | cons t nodes ih =>
    obtain ⟨htu, hbusy, hlt, hunmerged, huntaken⟩ := hnodes t List.mem_cons_self
    have hjoin : JoinedTo c.graph (c.connect t u).graph u [t] :=
      joinedTo_connect hg htu (hsize ▸ hlt) (hsize ▸ hu)
    have hcore := sameCore_connect c t u
    have hcore' := sameCore_lowerDegree (c.connect t u) t
    obtain ⟨hsimplify, hfreeze, -, -, -⟩ := lists_connect c t u
    have hidle : ¬ (busy t ∨ t = u) := fun hb => hb.elim hbusy htu
    have hnext : ((c.connect t u).lowerDegree t).Worklists fun k => busy k ∨ k = u := by
      refine (h.connect htu hjoin.moves).lowerDegree (hcore.colorCount ▸ hcolors) ?_ ?_ ?_ ?_ ?_
      · intro hphys
        exact ⟨by simpa [Node.isPhysical] using hphys, hcore.size ▸ hlt, hcore.merged ▸ hunmerged,
          hcore.stacked ▸ huntaken⟩
      · exact hcore.stacked ▸ huntaken
      · intro ht
        rw [moveRelated_connect]
        exact h.idle t (.inl (hsimplify ▸ ht)) hidle
      · intro ht
        rw [moveRelated_connect]
        exact h.related t (hfreeze ▸ ht) hidle
      · intro ht
        have hlow := h.low t (hfreeze ▸ ht) hidle
        have hraise := (degreeOf_connect (c := c) htu t).2.1
        rw [hcore.colorCount]
        exact hraise.trans hlow
    have hgraph : ((c.connect t u).lowerDegree t).graph = (c.connect t u).graph := hcore'.graph
    have hboth : SameCore { c with graph := (c.connect t u).graph } ((c.connect t u).lowerDegree t) :=
      hcore.trans hcore'
    obtain ⟨g, hg', hc', hlists, hu'⟩ := ih hnext (hboth.colorCount ▸ hcolors) (hgraph ▸ hjoin.simple)
      (by rw [hgraph, hjoin.size, hsize, hboth.size]) (hboth.size ▸ hu) (fun t' ht' => by
        rw [hboth.size, hboth.merged, hboth.stacked]
        exact hnodes t' (List.mem_cons_of_mem _ ht'))
    refine ⟨g, hjoin.trans (hgraph ▸ hg'), (hboth.withGraph g).trans hc', hlists, hu'.trans ?_⟩
    cases hphys : Node.isPhysical t with
    | true => rw [Coloring.lowerDegree, if_pos hphys, hsimplify]
    | false => rw [((lists_lowerDegree hphys u).1 (.inl htu.symm)).1, hsimplify]

/-! ## Merging -/

/-- Nodes may leave the lists of nodes that are not yet to be taken. -/
theorem Worklists.without (h : c.Worklists busy) (hcore : SameCore c c')
    (hdegree : c'.degree = c.degree) (hplay : ∀ m, c'.InPlay m ↔ c.InPlay m)
    (hsimplify : c'.simplifyList = c.simplifyList)
    (hfreeze : ∀ k, c'.freezeList.contains k = true → c.freezeList.contains k = true)
    (hspill : ∀ k, c'.spillList.contains k = true → c.spillList.contains k = true) : c'.Worklists busy :=
  h.shift (J := fun _ => False) hcore hdegree hplay (fun _ hk => hk.elim) (fun _ hk => .inl (hsimplify ▸ hk)) hfreeze hspill

/-- Merging a node that is on no list into a busy one keeps the lists. -/
theorem Worklists.mergedState {u v : Nat} (h : c.Worklists fun k => busy k ∨ k = u) (hc : c.Classes)
    (hm : c.Mergeable u v) (hsimplify : c.simplifyList.contains v = false)
    (hfreeze : c.freezeList.contains v = false) (hspill : c.spillList.contains v = false) :
    (c.mergedState c.graph u v).Worklists fun k => busy k ∨ k = u := by
  have halias : ∀ n, (c.mergedState c.graph u v).aliasOf n =
      if c.aliasOf n = v then u else c.aliasOf n := fun n => (aliasOf_mergedState hc hm c.graph n).1
  have hlist : ∀ k, (c.mergedState c.graph u v).moveList.getD k .empty =
      if k = u then (c.moveList.getD u .empty).union (c.moveList.getD v .empty)
      else c.moveList.getD k .empty := by
    intro k
    have hu : u < c.moveList.size := hc.size_moves ▸ hm.known
    change (c.moveList.modify u (·.union (c.moveList.getD v .empty))).getD k .empty = _
    rw [getD_modify]
    by_cases hku : k = u
    · rw [if_pos ⟨hku.symm, hu⟩, if_pos hku, hku]
    · rw [if_neg fun hc => hku hc.1.symm, if_neg hku]
  have hrel : ∀ k, k ≠ u → (c.mergedState c.graph u v).moveRelated k = c.moveRelated k := by
    intro k hku
    exact moveRelated_congr (by rw [hlist, if_neg hku]) fun _ => Iff.rfl
  have hfree : ∀ k, c.Free k → k ≠ v → (c.mergedState c.graph u v).Free k := by
    intro k hk hkv
    refine ⟨hk.virtual, hk.known, ?_, hk.untaken⟩
    change (c.merged.insert v).contains k = false
    rw [NatSet.contains_insert, hk.unmerged, Bool.false_or, beq_eq_false_iff_ne]
    exact hkv.symm
  have hoff : ∀ {s : NatSet} {k : Nat}, s.contains v = false → s.contains k = true → k ≠ v := by
    rintro s k hv hk rfl
    exact Bool.noConfusion (hv.symm.trans hk)
  refine { simplify_free := ?_, freeze_free := ?_, spill_free := ?_
           simplify_freeze := h.simplify_freeze, simplify_spill := h.simplify_spill
           freeze_spill := h.freeze_spill, idle := ?_, related := ?_, low := h.low, high := h.high
           listed := ?_, owned := ?_ }
  · exact fun k hk => hfree k (h.simplify_free k hk) (hoff hsimplify hk)
  · exact fun k hk => hfree k (h.freeze_free k hk) (hoff hfreeze hk)
  · exact fun k hk => hfree k (h.spill_free k hk) (hoff hspill hk)
  · intro k hk hb
    rw [hrel k fun hku => hb (.inr hku)]
    exact h.idle k hk hb
  · intro k hk hb
    rw [hrel k fun hku => hb (.inr hku)]
    exact h.related k hk hb
  · intro m hplay e he
    have hlisted := h.listed m hplay e he
    rw [halias, hlist]
    by_cases hev : c.aliasOf e = v
    · rw [if_pos hev, if_pos rfl, NatSet.contains_union, ← hev, hlisted, Bool.or_true]
    · rw [if_neg hev]
      split
      · rename_i heu
        rw [NatSet.contains_union, ← heu, hlisted, Bool.true_or]
      · exact hlisted
  · intro n m hn hnm
    change (c.merged.insert v).contains n = false at hn
    rw [NatSet.contains_insert, Bool.or_eq_false_iff, beq_eq_false_iff_ne] at hn
    rw [hlist] at hnm
    rw [show (c.mergedState c.graph u v).graph = c.graph from rfl, halias, halias]
    by_cases hnu : n = u
    · rw [if_pos hnu, NatSet.contains_union, Bool.or_eq_true] at hnm
      subst hnu
      rcases hnm with hnm | hnm
      · rcases h.owned n m hn.1 hnm with howned | howned
        · left; rw [howned, ite_self]
        · right; rw [howned, ite_self]
      · rcases h.owned v m hm.free.unmerged hnm with howned | howned
        · left; rw [if_pos howned]
        · right; rw [if_pos howned]
    · rw [if_neg hnu] at hnm
      rcases h.owned n m hn.1 hnm with howned | howned
      · left; rw [howned, if_neg hn.2.symm]
      · right; rw [howned, if_neg hn.2.symm]

/-- A node that is to be merged leaves its list. -/
def unlist (c : Coloring) (v : Nat) : Coloring :=
  if c.freezeList.contains v then { c with freezeList := c.freezeList.erase v }
  else { c with spillList := c.spillList.erase v }

/-- A node that has outgrown the freeze list goes to the spill list. -/
def outgrow (c : Coloring) (u : Nat) : Coloring :=
  if c.isSignificant u && c.freezeList.contains u then
    { c with freezeList := c.freezeList.erase u, spillList := c.spillList.insert u }
  else c

/-- The state in which `v` is merged into `u` and the neighbours of `v` are not yet those of `u`. -/
def joining (c : Coloring) (u v : Nat) : Coloring :=
  ((c.unlist v).mergedState (c.unlist v).graph u v).enableMoves [v]

/-- The stages of a merge. -/
theorem merge_eq (c : Coloring) (u v : Nat) :
    c.merge u v = (((c.joining u v).adjacent v).toList.foldl (fun c t => (c.connect t u).lowerDegree t)
      (c.joining u v)).outgrow u := rfl

/-- Leaving a list keeps the others, and all else. -/
theorem unlist_spec {v : Nat} (hw : c.Worklists busy) :
    SameCore c (c.unlist v) ∧ (c.unlist v).Worklists busy ∧ (c.unlist v).simplifyList = c.simplifyList ∧
      (c.unlist v).freezeList.contains v = false ∧ (c.unlist v).spillList.contains v = false := by
  have herase : ∀ (s : NatSet) k, (s.erase v).contains k = true → s.contains k = true := by
    intro s k hk
    rw [NatSet.contains_erase, Bool.and_eq_true] at hk
    exact hk.1
  unfold unlist
  split
  · rename_i hv
    have hcore : SameCore c { c with freezeList := c.freezeList.erase v } := by constructor <;> rfl
    exact ⟨hcore, hw.without hcore rfl (fun _ => Iff.rfl) rfl (herase _) (fun _ hk => hk), rfl, by simp,
      hw.freeze_spill v hv⟩
  · rename_i hv
    have hcore : SameCore c { c with spillList := c.spillList.erase v } := by constructor <;> rfl
    exact ⟨hcore, hw.without hcore rfl (fun _ => Iff.rfl) rfl (fun _ hk => hk) (herase _), rfl,
      by simpa using hv, by simp⟩

/-- Going from the freeze list to the spill list keeps the lists. -/
theorem outgrow_spec {u : Nat} (hw : c.Worklists fun k => busy k ∨ k = u)
    (hu : c.simplifyList.contains u = false) :
    SameCore c (c.outgrow u) ∧ ((c.outgrow u).Worklists fun k => busy k ∨ k = u) ∧
      (c.outgrow u).simplifyList.contains u = false ∧
      ((c.outgrow u).freezeList.contains u = true →
        (c.outgrow u).degreeOf u < (c.outgrow u).colorCount) := by
  unfold outgrow
  split
  · rename_i hcond
    rw [Bool.and_eq_true] at hcond
    obtain ⟨hsig, hf⟩ := hcond
    have hfree := hw.freeze_free u hf
    set c₁ : Coloring :=
      { c with freezeList := c.freezeList.erase u, spillList := c.spillList.insert u } with hc₁
    have hcore : SameCore c c₁ := by constructor <;> rfl
    have hsplit : ∀ k, c₁.spillList.contains k = true → c.spillList.contains k = true ∨ k = u := by
      intro k hk
      rw [hc₁, NatSet.contains_insert, Bool.or_eq_true, beq_iff_eq] at hk
      exact hk.imp_right Eq.symm
    have herase : ∀ k, c₁.freezeList.contains k = true → c.freezeList.contains k = true ∧ k ≠ u := by
      intro k hk
      rw [hc₁, NatSet.contains_erase, Bool.and_eq_true, bne_iff_ne] at hk
      exact ⟨hk.1, hk.2.symm⟩
    obtain ⟨hlisted, howned⟩ := hcore.copies hw fun _ => id
    refine ⟨hcore, ⟨?_, ?_, ?_, ?_, ?_, ?_, hw.idle, ?_, ?_, ?_, hlisted, howned⟩, hu, ?_⟩
    · exact fun k hk => (hw.simplify_free k hk).of_core hcore
    · exact fun k hk => (hw.freeze_free k (herase k hk).1).of_core hcore
    · intro k hk
      rcases hsplit k hk with hk | rfl
      · exact (hw.spill_free k hk).of_core hcore
      · exact hfree.of_core hcore
    · intro k hk
      rw [hc₁, NatSet.contains_erase, hw.simplify_freeze k hk, Bool.false_and]
    · intro k hk
      rw [← Bool.not_eq_true]
      intro hk'
      rcases hsplit k hk' with hk' | rfl
      · exact Bool.noConfusion ((hw.simplify_spill k hk).symm.trans hk')
      · exact Bool.noConfusion (hu.symm.trans hk)
    · intro k hk
      rw [← Bool.not_eq_true]
      intro hk'
      exact (hsplit k hk').elim
        (fun hk' => Bool.noConfusion ((hw.freeze_spill k (herase k hk).1).symm.trans hk')) (herase k hk).2
    · exact fun k hk => hw.related k (herase k hk).1
    · exact fun k hk => hw.low k (herase k hk).1
    · intro k hk
      rcases hsplit k hk with hk | rfl
      · exact hw.high k hk
      · exact of_decide_eq_true hsig
    · exact fun hk => absurd rfl (herase u hk).2
  · rename_i hcond
    refine ⟨.refl c, hw, hu, fun hf => ?_⟩
    rw [hf, Bool.and_true] at hcond
    simpa [isSignificant] using hcond

/-- The neighbours of a node that are neither taken nor merged. -/
theorem mem_adjacent {v : Nat} : t ∈ (c.adjacent v).toList ↔ c.graph.adjacent v t = true ∧
    c.stacked.contains t = false ∧ c.merged.contains t = false := by
  rw [NatSet.mem_toList, adjacent, NatSet.contains_diff, NatSet.contains_diff, Bool.and_eq_true,
    Bool.and_eq_true, Bool.not_eq_true', Bool.not_eq_true', and_assoc]
  rfl

/-- What holds before the neighbours of the merged node are joined to the other one. -/
theorem joining_spec {u v : Nat} (hc : c.Classes) (hw : c.Worklists fun k => (False ∨ k = u) ∨ k = v)
    (hm : c.Mergeable u v) (hv : c.simplifyList.contains v = false) :
    SameCore (c.mergedState c.graph u v) (c.joining u v) ∧
      ((c.joining u v).Worklists fun k => False ∨ k = u) ∧
      (c.joining u v).simplifyList = c.simplifyList ∧
      (∀ t, t ∈ ((c.joining u v).adjacent v).toList ↔ c.graph.adjacent v t = true ∧
        c.stacked.contains t = false ∧ c.merged.contains t = false) ∧
      ∀ t ∈ ((c.joining u v).adjacent v).toList, t ≠ u ∧ ¬ False ∧ t < (c.joining u v).degree.size ∧
        (c.joining u v).merged.contains t = false ∧ (c.joining u v).stacked.contains t = false := by
  obtain ⟨hcore₁, hlists₁, hsimplify₁, hfreeze₁, hspill₁⟩ := unlist_spec (v := v) hw
  unfold joining
  generalize c.unlist v = c₁ at hcore₁ hlists₁ hsimplify₁ hfreeze₁ hspill₁ ⊢
  have hm₁ : c₁.Mergeable u v := by
    refine ⟨hm.ne, hm.free.of_core hcore₁, hcore₁.size ▸ hm.known, hcore₁.merged ▸ hm.unmerged,
      hcore₁.stacked ▸ hm.untaken, hcore₁.budget ▸ hm.budget, hcore₁.graph ▸ hm.apart⟩
  have hw₁ : c₁.Worklists fun k => False ∨ k = u := by
    refine hlists₁.close ?_ ?_ ?_
    · rintro (hs | hs)
      · exact Bool.noConfusion (hv.symm.trans (hsimplify₁ ▸ hs))
      · exact Bool.noConfusion (hm₁.free.untaken.symm.trans hs)
    · exact fun hf => Bool.noConfusion (hfreeze₁.symm.trans hf)
    · exact fun hf => Bool.noConfusion (hfreeze₁.symm.trans hf)
  have hw₂ := (hw₁.mergedState (hc.of_core hcore₁) hm₁ (hsimplify₁ ▸ hv) hfreeze₁ hspill₁).enableMoves [v]
  have hcore₂ : SameCore (c.mergedState c.graph u v) ((c₁.mergedState c₁.graph u v).enableMoves [v]) := by
    constructor
    · exact hcore₁.graph
    · exact hcore₁.budget
    · exact hcore₁.colorCount
    · exact hcore₁.size
    · change c₁.mergedInto.setIfInBounds v u = c.mergedInto.setIfInBounds v u
      rw [hcore₁.mergedInto]
    · change c₁.merged.insert v = c.merged.insert v
      rw [hcore₁.merged]
    · exact hcore₁.stacked
    · exact hcore₁.temps
    · change c₁.moveList.modify u (·.union (c₁.moveList.getD v .empty)) =
        c.moveList.modify u (·.union (c.moveList.getD v .empty))
      rw [hcore₁.moveList]
    · exact hcore₁.stack
    · exact hcore₁.colors
  set c₂ := (c₁.mergedState c₁.graph u v).enableMoves [v] with hc₂
  have hnodes : ∀ t, t ∈ (c₂.adjacent v).toList ↔ c.graph.adjacent v t = true ∧
      c.stacked.contains t = false ∧ c.merged.contains t = false := by
    intro t
    rw [mem_adjacent, hcore₂.graph, hcore₂.stacked, hcore₂.merged]
    change c.graph.adjacent v t = true ∧ c.stacked.contains t = false ∧ (c.merged.insert v).contains t = false ↔ _
    rw [NatSet.contains_insert, Bool.or_eq_false_iff, beq_eq_false_iff_ne]
    exact ⟨fun ⟨ha, hs, hun, _⟩ => ⟨ha, hs, hun⟩,
      fun ⟨ha, hs, hun⟩ => ⟨ha, hs, hun, hc.simple.irrefl ha⟩⟩
  refine ⟨hcore₂, hw₂, hsimplify₁, hnodes, fun t ht => ?_⟩
  obtain ⟨hadj, hs, -⟩ := (hnodes t).1 ht
  refine ⟨?_, not_false, ?_, (mem_adjacent.1 ht).2.2, (mem_adjacent.1 ht).2.1⟩
  · rintro rfl
    exact Bool.noConfusion (hm.apart.symm.trans (hc.simple.symm hadj))
  · rw [hcore₂.size]
    change t < c.degree.size
    rw [← hc.size_graph]
    exact hc.simple.bound (hc.simple.symm hadj)

/-- What a merge does: `u` stands for both classes, has the neighbours of both, and is on the list that
its degree asks for. -/
theorem merge_spec {u v : Nat} (hc : c.Classes) (hcolors : 0 < c.colorCount)
    (hw : c.Worklists fun k => (False ∨ k = u) ∨ k = v) (hm : c.Mergeable u v)
    (hu : c.simplifyList.contains u = false) (hv : c.simplifyList.contains v = false) :
    ∃ g nodes, JoinedTo c.graph g u nodes ∧
      (∀ t, t ∈ nodes ↔ c.graph.adjacent v t = true ∧ c.stacked.contains t = false ∧
        c.merged.contains t = false) ∧
      SameCore (c.mergedState g u v) (c.merge u v) ∧
      ((c.merge u v).Worklists fun k => False ∨ k = u) ∧
      (c.merge u v).simplifyList.contains u = false ∧
      ((c.merge u v).freezeList.contains u = true →
        (c.merge u v).degreeOf u < (c.merge u v).colorCount) := by
  obtain ⟨hcore₂, hw₂, hsimplify₂, hnodes, hnodes'⟩ := joining_spec hc hw hm hv
  rw [merge_eq]
  generalize c.joining u v = c₂ at hcore₂ hw₂ hsimplify₂ hnodes hnodes' ⊢
  obtain ⟨g, hjoin, hcore₃, hw₃, hu₃⟩ := hw₂.foldl_join (c₂.adjacent v).toList
    (hcore₂.colorCount ▸ hcolors) (hcore₂.graph ▸ hc.simple)
    (by rw [hcore₂.graph, hcore₂.size]; exact hc.size_graph) (hcore₂.size ▸ hm.known) hnodes'
  obtain ⟨hcore₄, hw₄, hu₄, hlow₄⟩ := outgrow_spec hw₃ (hu₃.trans (hsimplify₂ ▸ hu))
  refine ⟨g, _, hcore₂.graph ▸ hjoin, hnodes, ?_, hw₄, hu₄, hlow₄⟩
  have hcore₂' : SameCore { c.mergedState c.graph u v with graph := c.graph } c₂ := hcore₂
  exact (hcore₂'.withGraph g).trans (hcore₃.trans hcore₄)

/-! ## One step -/

/-- What every step keeps. -/
structure Sound (c : Coloring) : Prop where
  classes : c.Classes
  lists : c.Worklists fun _ => False
  colors : 0 < c.colorCount

/-- Edges and copies are between some of the nodes only, and these are merged among themselves. -/
structure Confined (c : Coloring) (nodes : Nat → Prop) : Prop where
  graph : c.graph.Within nodes
  merged : ∀ n, nodes n → nodes (c.aliasOf n)

/-- What no step changes, that no edge is lost, and that edges come up among the nodes that had some only. -/
structure Grows (c c' : Coloring) : Prop where
  budget : c'.budget = c.budget
  temps : c'.temps = c.temps
  size : c'.degree.size = c.degree.size
  edges : c.graph.Extends c'.graph
  moves : c'.graph.moves = c.graph.moves
  confined : ∀ nodes, c.Confined nodes → c'.Confined nodes

theorem Confined.of_eq {nodes : Nat → Prop} (h : c.Confined nodes) (hgraph : c'.graph = c.graph)
    (hmerged : c'.merged = c.merged) (hinto : c'.mergedInto = c.mergedInto) : c'.Confined nodes where
  graph := hgraph ▸ h.graph
  merged n hn := by
    rw [aliasOf_congr hmerged hinto]
    exact h.merged n hn

/-- States with the same core have the same edges. -/
theorem SameCore.grows (h : SameCore c c') : Grows c c' :=
  ⟨h.budget, h.temps, h.size, fun a b hab => by rw [h.graph]; exact hab, by rw [h.graph],
    fun _ hc => hc.of_eq h.graph h.merged h.mergedInto⟩

theorem Grows.trans {c₁ c₂ c₃ : Coloring} (h : Grows c₁ c₂) (h' : Grows c₂ c₃) : Grows c₁ c₃ :=
  ⟨h'.budget.trans h.budget, h'.temps.trans h.temps, h'.size.trans h.size,
    fun a b hab => h'.edges a b (h.edges a b hab), h'.moves.trans h.moves,
    fun nodes hc => h'.confined nodes (h.confined nodes hc)⟩

/-- A state with the same core is sound if its lists are. -/
theorem Sound.of_core (h : c.Sound) (hcore : SameCore c c') (hw : c'.Worklists fun _ => False) :
    c'.Sound :=
  ⟨h.classes.of_core hcore, hw, hcore.colorCount ▸ h.colors⟩

/-- Lowering the degrees of free nodes and physical registers keeps core and lists. -/
theorem Worklists.foldl_lowerDegree (nodes : List Nat) (h : c.Worklists fun _ => False)
    (hcolors : 0 < c.colorCount) (hnodes : ∀ t ∈ nodes, t < c.degree.size ∧
      c.merged.contains t = false ∧ c.stacked.contains t = false) : SameCore c (nodes.foldl Coloring.lowerDegree c) ∧
      (nodes.foldl Coloring.lowerDegree c).Worklists fun _ => False := by
  induction nodes generalizing c with
  | nil => exact ⟨.refl c, h⟩
  | cons t nodes ih =>
    obtain ⟨hlt, hunmerged, huntaken⟩ := hnodes t List.mem_cons_self
    have hcore := sameCore_lowerDegree c t
    have hnext : (c.lowerDegree t).Worklists fun _ => False := by
      refine (h.mono fun k hk => .inl hk).lowerDegree hcolors ?_ huntaken ?_ ?_ ?_
      · exact fun hphys => ⟨by simpa [Node.isPhysical] using hphys, hlt, hunmerged, huntaken⟩
      · exact fun ht => h.idle t (.inl ht) id
      · exact fun ht => h.related t ht id
      · exact fun ht => (h.low t ht id).le
    obtain ⟨hcore', hw⟩ := ih hnext (hcore.colorCount ▸ hcolors) (fun t' ht' => by
      rw [hcore.size, hcore.merged, hcore.stacked]
      exact hnodes t' (List.mem_cons_of_mem _ ht'))
    exact ⟨hcore.trans hcore', hw⟩

/-- The state in which a node is on the stack and its neighbours still count it. -/
def taken (c : Coloring) (n : Nat) : Coloring :=
  { c with
    simplifyList := c.simplifyList.erase n
    stack := n :: c.stack
    stacked := c.stacked.insert n }

/-- Putting a node that is ready on the stack keeps all. -/
theorem Sound.taken (h : c.Sound) (hn : c.simplifyList.contains n = true) : (c.taken n).Sound := by
  have hfree := h.lists.simplify_free n hn
  set c₁ := c.taken n with hc₁
  have hclasses : c₁.Classes := (h.classes.push hfree).of_core (by constructor <;> rfl)
  have hrel : ∀ k, c₁.moveRelated k = c.moveRelated k := fun k => moveRelated_congr rfl fun _ => Iff.rfl
  have halias : ∀ k, c₁.aliasOf k = c.aliasOf k := aliasOf_congr rfl rfl
  have hkeep : ∀ k, c.Free k → k ≠ n → c₁.Free k := by
    intro k hk hkn
    refine ⟨hk.virtual, hk.known, hk.unmerged, ?_⟩
    change (c.stacked.insert n).contains k = false
    rw [NatSet.contains_insert, hk.untaken, Bool.false_or, beq_eq_false_iff_ne]
    exact hkn.symm
  have hother : ∀ {s : NatSet} {k : Nat}, s.contains n = false → s.contains k = true → k ≠ n := by
    rintro s k hs hk rfl
    exact Bool.noConfusion (hs.symm.trans hk)
  have herase : ∀ k, c₁.simplifyList.contains k = true → c.simplifyList.contains k = true ∧ k ≠ n := by
    intro k hk
    change (c.simplifyList.erase n).contains k = true at hk
    rw [NatSet.contains_erase, Bool.and_eq_true, bne_iff_ne] at hk
    exact ⟨hk.1, hk.2.symm⟩
  have hw : c₁.Worklists fun _ => False := by
    refine
      { simplify_free := fun k hk => hkeep k (h.lists.simplify_free k (herase k hk).1) (herase k hk).2
        freeze_free := fun k hk => hkeep k (h.lists.freeze_free k hk)
          (hother (h.lists.simplify_freeze n hn) hk)
        spill_free := fun k hk => hkeep k (h.lists.spill_free k hk)
          (hother (h.lists.simplify_spill n hn) hk)
        simplify_freeze := fun k hk => h.lists.simplify_freeze k (herase k hk).1
        simplify_spill := fun k hk => h.lists.simplify_spill k (herase k hk).1
        freeze_spill := h.lists.freeze_spill
        idle := ?_
        related := fun k hk hb => (hrel k).trans (h.lists.related k hk hb)
        low := h.lists.low
        high := h.lists.high
        listed := ?_
        owned := ?_ }
    · intro k hk hb
      rw [hrel]
      rcases hk with hk | hk
      · exact h.lists.idle k (.inl (herase k hk).1) hb
      · change (c.stacked.insert n).contains k = true at hk
        rw [NatSet.contains_insert, Bool.or_eq_true, beq_iff_eq] at hk
        rcases hk with hk | rfl
        · exact h.lists.idle k (.inr hk) hb
        · exact h.lists.idle n (.inl hn) hb
    · intro m hm e he
      rw [halias]
      exact h.lists.listed m hm e he
    · intro k m hk hkm
      rw [halias, halias]
      exact h.lists.owned k m hk hkm
  exact ⟨hclasses, hw, h.colors⟩

/-- The neighbours that still count a node are known, and neither merged nor taken. -/
theorem Sound.mem_adjacent_spec (h : c.Sound) (ht : t ∈ (c.adjacent n).toList) :
    t < c.degree.size ∧ c.merged.contains t = false ∧ c.stacked.contains t = false := by
  obtain ⟨hadj, hs, hun⟩ := mem_adjacent.1 ht
  refine ⟨?_, hun, hs⟩
  rw [← h.classes.size_graph]
  exact h.classes.simple.bound (h.classes.simple.symm hadj)

/-- Taking a node that is ready keeps all. -/
theorem Sound.simplify (h : c.Sound) (hn : c.simplifyList.contains n = true) :
    (c.simplify n).Sound ∧ Grows c (c.simplify n) := by
  have htaken := h.taken hn
  obtain ⟨hcore, hw'⟩ := htaken.lists.foldl_lowerDegree _ h.colors fun t ht => htaken.mem_adjacent_spec ht
  have hgrow : Grows c (c.taken n) := ⟨rfl, rfl, rfl, fun _ _ hab => hab, rfl, fun _ hc => hc.of_eq rfl rfl rfl⟩
  exact ⟨htaken.of_core hcore hw', hgrow.trans hcore.grows⟩

/-- Making a node ready by giving up its copies keeps all. -/
theorem Sound.giveUp (h : c.Sound) (hfree : c.Free n) (hready : Readied c c' n) :
    (c'.freezeMoves n).Sound ∧ Grows c (c'.freezeMoves n) := by
  have hfree' := hfree.of_core hready.core
  obtain ⟨hcore, hw, -⟩ := ((h.lists.mono fun k hk => .inl hk).ready hfree hready).freezeMoves
    (Classes.aliasOf_of_unmerged hfree'.unmerged) hfree'.unmerged ((hready.simplify n).2 (.inr rfl))
  exact ⟨h.of_core (hready.core.trans hcore) hw, (hready.core.trans hcore).grows⟩

/-- Giving up the copies of a node of low degree keeps all. -/
theorem Sound.freeze (h : c.Sound) (hn : c.freezeList.contains n = true) :
    (c.freeze n).Sound ∧ Grows c (c.freeze n) := by
  unfold Coloring.freeze
  exact h.giveUp (h.lists.freeze_free n hn) (readied_of_freeze (h.lists.freeze_spill n hn))

/-- No node is on the freeze list and the spill list. -/
theorem Sound.freeze_of_spill (h : c.Sound) (hn : c.spillList.contains n = true) : c.freezeList.contains n = false := by
  by_contra hf
  exact Bool.noConfusion ((h.lists.freeze_spill n (by simpa using hf)).symm.trans hn)

/-- Taking a node of high degree in the hope of a colour keeps all. -/
theorem Sound.hope (h : c.Sound) (hn : c.spillList.contains n = true) : (c.hope n).Sound ∧ Grows c (c.hope n) := by
  unfold Coloring.hope
  exact h.giveUp (h.lists.spill_free n hn) (readied_of_spill (h.freeze_of_spill hn))

/-- The lists after a node is released: only that node may have changed its list. -/
theorem lists_release {u : Nat} (k : Nat) :
    ((c.release u).freezeList.contains k = true → c.freezeList.contains k = true) ∧
      (k ≠ u → (c.release u).simplifyList.contains k = c.simplifyList.contains k) ∧
      (c.release u).degree = c.degree := by
  unfold release
  split
  · refine ⟨fun hk => ((contains_erase_iff _ u k).1 hk).1, fun hku => ?_, rfl⟩
    rw [Bool.eq_iff_iff, contains_insert_iff]
    exact ⟨fun hk => hk.resolve_right hku, .inl⟩
  · exact ⟨id, fun _ => rfl, rfl⟩

/-- The nodes that stand for the ends of a copy that is being tried. -/
structure Ends (c : Coloring) (m u v : Nat) : Prop where
  known : u < c.degree.size ∧ v < c.degree.size
  unmerged : c.merged.contains u = false ∧ c.merged.contains v = false
  untaken : c.stacked.contains u = false ∧ c.stacked.contains v = false
  unready : c.simplifyList.contains u = false ∧ c.simplifyList.contains v = false
  budget : u ≠ v → ∀ r : Register, r.toNat = u → c.budget.contains r = true
  owner : ∀ n, c.merged.contains n = false → (c.moveList.getD n .empty).contains m = true → n = u ∨ n = v
  stands : u ≠ v → ∃ p ∈ c.graph.moves, u = c.aliasOf p.1 ∨ u = c.aliasOf p.2

/-- A node that stands for another one belongs to the budget if it is a register that a copy mentions,
and always if the other one is virtual. -/
theorem Classes.budget_aliasOf (h : c.Classes) {e : Nat}
    (he : ∀ r : Register, r.toNat = e → c.budget.contains r = true) (r : Register)
    (hr : r.toNat = c.aliasOf e) : c.budget.contains r = true := by
  by_cases hv : Node.firstVirtual ≤ e
  · exact h.alias_budget e hv r hr
  · have hphys : Node.isPhysical e = true := by simpa [Node.isPhysical] using hv
    rw [aliasOf_of_unmerged (h.unmerged_of_isPhysical hphys)] at hr
    exact he r hr

/-- The nodes that stand for the ends of a copy in play, in either order. -/
theorem Sound.ends {m : Nat} (h : c.Sound) (hm : c.InPlay m) :
    c.Ends m (c.aliasOf (c.graph.moves.getD m (0, 0)).1) (c.aliasOf (c.graph.moves.getD m (0, 0)).2) ∧
      c.Ends m (c.aliasOf (c.graph.moves.getD m (0, 0)).2)
        (c.aliasOf (c.graph.moves.getD m (0, 0)).1) := by
  have hcopy : ((c.graph.moves.getD m (0, 0)).1 < c.degree.size ∧
      (c.graph.moves.getD m (0, 0)).2 < c.degree.size) ∧
      ((c.graph.moves.getD m (0, 0)).1 ≠ (c.graph.moves.getD m (0, 0)).2 →
        c.graph.moves.getD m (0, 0) ∈ c.graph.moves) := by
    by_cases hlt : m < c.graph.moves.size
    · have hmem : c.graph.moves.getD m (0, 0) ∈ c.graph.moves := by
        rw [Array.getD_eq_getD_getElem?, Array.getElem?_eq_getElem hlt]
        exact Array.getElem_mem hlt
      exact ⟨h.classes.moves_lt _ hmem, fun _ => hmem⟩
    · have hnone : c.graph.moves.getD m (0, 0) = (0, 0) := by
        rw [Array.getD_eq_getD_getElem?, Array.getElem?_eq_none (Nat.not_lt.1 hlt)]
        rfl
      have hpos : 0 < c.degree.size := Nat.lt_of_lt_of_le (by decide) h.classes.physical_known
      rw [hnone]
      exact ⟨⟨hpos, hpos⟩, fun hne => absurd rfl hne⟩
  have hidle₁ := h.lists.not_idle hm (.inl rfl)
  have hidle₂ := h.lists.not_idle hm (.inr rfl)
  have howner := fun n hn hnm => h.lists.owned n m hn hnm
  generalize c.graph.moves.getD m (0, 0) = p at hcopy hidle₁ hidle₂ howner ⊢
  obtain ⟨hbound, hmem⟩ := hcopy
  have hknown := And.intro (h.classes.alias_lt _ hbound.1) (h.classes.alias_lt _ hbound.2)
  have hunmerged := And.intro (h.classes.unmerged_aliasOf p.1) (h.classes.unmerged_aliasOf p.2)
  have hmem' : c.aliasOf p.1 ≠ c.aliasOf p.2 → p ∈ c.graph.moves := fun hne => hmem fun heq => hne (by rw [heq])
  have hbudget' : c.aliasOf p.1 ≠ c.aliasOf p.2 → ∀ r : Register,
      r.toNat = p.1 ∨ r.toNat = p.2 → c.budget.contains r = true :=
    fun hne => h.classes.moves_budget _ (hmem' hne)
  constructor
  · refine ⟨hknown, hunmerged, ⟨hidle₁.2, hidle₂.2⟩, ⟨hidle₁.1, hidle₂.1⟩, fun hne => ?_, ?_, fun hne => ?_⟩
    · exact h.classes.budget_aliasOf fun r hr => hbudget' hne r (.inl hr)
    · exact fun n hn hnm => (howner n hn hnm).imp Eq.symm Eq.symm
    · exact ⟨p, hmem' hne, .inl rfl⟩
  · refine ⟨hknown.symm, hunmerged.symm, ⟨hidle₂.2, hidle₁.2⟩, ⟨hidle₂.1, hidle₁.1⟩, fun hne => ?_, ?_, fun hne => ?_⟩
    · exact h.classes.budget_aliasOf fun r hr => hbudget' hne.symm r (.inr hr)
    · exact fun n hn hnm => ((howner n hn hnm).imp Eq.symm Eq.symm).symm
    · exact ⟨p, hmem' hne.symm, .inr rfl⟩

/-- Tries to merge the nodes that stand for the ends of a copy that is no longer pending. -/
def tryMerge (c : Coloring) (m u v : Nat) : Coloring :=
  if u = v then c.release u
  else if Node.isPhysical v || c.graph.adjacent u v then (c.release u).release v
  else if c.mayMerge u v then (c.merge u v).release u
  else { c with activeMoves := c.activeMoves.insert m }

/-- The state in which a copy is no longer pending. -/
def unpend (c : Coloring) (m : Nat) : Coloring := { c with pendingMoves := c.pendingMoves.erase m }

/-- A copy that is no longer pending changes the standing of this copy only. -/
theorem sameCore_unpend (c : Coloring) (m : Nat) : SameCore c (c.unpend m) := by constructor <;> rfl

/-- A physical register is always the first of the two nodes. -/
theorem coalesce_eq (c : Coloring) (m : Nat) : let x := c.aliasOf (c.graph.moves.getD m (0, 0)).1
    let y := c.aliasOf (c.graph.moves.getD m (0, 0)).2
    c.coalesce m = if Node.isPhysical y then (c.unpend m).tryMerge m y x else (c.unpend m).tryMerge m x y := by
  have halias : ∀ k, ({ c with pendingMoves := c.pendingMoves.erase m } : Coloring).aliasOf k =
      c.aliasOf k := aliasOf_congr rfl rfl
  unfold coalesce
  dsimp only
  rw [halias, halias]
  cases Node.isPhysical (c.aliasOf (c.graph.moves.getD m (0, 0)).2) with
  | true => rfl
  | false => rfl

section Ends

variable {m u v : Nat}

/-- The virtual ones of the two nodes are free. -/
theorem Ends.free (he : c.Ends m u v) (hk : k = u ∨ k = v) (hphys : Node.isPhysical k = false) : c.Free k := by
  rcases hk with rfl | rfl
  · exact ⟨by simpa [Node.isPhysical] using hphys, he.known.1, he.unmerged.1, he.untaken.1⟩
  · exact ⟨by simpa [Node.isPhysical] using hphys, he.known.2, he.unmerged.2, he.untaken.2⟩

/-- While the copy is tried its nodes are busy. -/
theorem Sound.unpend (h : c.Sound) (he : c.Ends m u v) : (c.unpend m).Worklists fun k => (False ∨ k = u) ∨ k = v := by
  refine (h.lists.mono fun k hk => .inl (.inl hk)).dropMove (m := m) (sameCore_unpend c m) rfl rfl rfl rfl ?_ ?_ ?_
  · exact fun k hk => hk.imp_left fun hk => ((contains_erase_iff _ m k).1 hk).1
  · exact fun k hk hkm => hk.imp_left fun hk => (contains_erase_iff _ m k).2 ⟨hk, hkm⟩
  · exact fun n hn hnm => (he.owner n hn hnm).imp_left .inr

/-- Two nodes may be merged if the second one is virtual and they do not interfere. -/
theorem Ends.mergeable (he : c.Ends m u v) (huv : u ≠ v) (hphys : Node.isPhysical v = false)
    (hadj : c.graph.adjacent u v = false) : (c.unpend m).Mergeable u v :=
  ⟨huv, (he.free (.inr rfl) hphys).of_core (sameCore_unpend c m), he.known.1, he.unmerged.1, he.untaken.1,
    he.budget huv, hadj⟩

end Ends

/-- A merge of the ends of a copy adds edges among the nodes that had some only. -/
theorem Confined.mergedState {nodes : Nat → Prop} {u v : Nat} {around : List Nat} (h : c.Confined nodes)
    (hc : c.Classes) (hm : c.Mergeable u v) (hjoin : JoinedTo c.graph g u around)
    (haround : ∀ t, t ∈ around ↔ c.graph.adjacent v t = true ∧ c.stacked.contains t = false ∧
      c.merged.contains t = false) (hstands : ∃ p ∈ c.graph.moves, u = c.aliasOf p.1 ∨ u = c.aliasOf p.2) :
    (c.mergedState g u v).Confined nodes := by
  have hu : nodes u := by
    obtain ⟨p, hp, rfl | rfl⟩ := hstands
    · exact h.merged _ (h.graph.copies p hp).1
    · exact h.merged _ (h.graph.copies p hp).2
  refine ⟨⟨fun a b hab => ?_, fun p hp => ?_⟩, fun n hn => ?_⟩
  · rcases (hjoin.adjacent a b).1 hab with hab | ⟨rfl, -⟩ | ⟨-, ha⟩
    · exact h.graph.edges a b hab
    · exact hu
    · exact h.graph.edges a v (hc.simple.symm ((haround a).1 ha).1)
  · rw [Coloring.mergedState, hjoin.moves] at hp
    exact h.graph.copies p hp
  · rw [(aliasOf_mergedState hc hm g n).1]
    split
    · exact hu
    · exact h.merged n hn

/-- Trying to merge the ends of a copy keeps all. -/
theorem Sound.tryMerge {m u v : Nat} (h : c.Sound) (hm : c.InPlay m) (he : c.Ends m u v) :
    ((c.unpend m).tryMerge m u v).Sound ∧ Grows c ((c.unpend m).tryMerge m u v) := by
  have hw := h.unpend he
  have hcore := sameCore_unpend c m
  have hfree : ∀ k, k = u ∨ k = v → Node.isPhysical k = false → c.Free k := fun k => he.free
  set c₁ := c.unpend m with hc₁
  unfold Coloring.tryMerge
  split
  · rename_i huv
    subst huv
    have hw' : c₁.Worklists fun k => False ∨ k = u := hw.mono fun k hk => hk.elim id .inr
    have hdone := hw'.release (fun hp => (hfree u (.inl rfl) hp).of_core hcore) he.untaken.1
      he.unready.1 (fun hf => h.lists.low u hf id)
    have hcore' := hcore.trans (sameCore_release c₁ u)
    exact ⟨h.of_core hcore' hdone, hcore'.grows⟩
  · rename_i huv
    split
    · -- The two must stay apart: both are released.
      have hw' : c₁.Worklists fun k => (False ∨ k = v) ∨ k = u :=
        hw.mono fun k hk => hk.elim (fun hk => hk.elim (fun hk => hk.elim) .inr) fun hk => .inl (.inr hk)
      have hone := hw'.release (fun hp => (hfree u (.inl rfl) hp).of_core hcore) he.untaken.1
        he.unready.1 (fun hf => h.lists.low u hf id)
      have hcore₁ := sameCore_release c₁ u
      obtain ⟨hfreeze, hsimplify, hdegree⟩ := lists_release (c := c₁) (u := u) v
      have hdone := hone.release
        (fun hp => ((hfree v (.inr rfl) hp).of_core hcore).of_core hcore₁)
        (hcore₁.stacked ▸ he.untaken.2) ((hsimplify fun hvu => huv hvu.symm).trans he.unready.2)
        (fun hf => by
          rw [degreeOf, hdegree, hcore₁.colorCount]
          exact h.lists.low v (hfreeze hf) id)
      have hcore' := (hcore.trans hcore₁).trans (sameCore_release (c₁.release u) v)
      exact ⟨h.of_core hcore' hdone, hcore'.grows⟩
    · rename_i hapart
      simp only [Bool.or_eq_true, not_or, Bool.not_eq_true] at hapart
      obtain ⟨hphys, hadj⟩ := hapart
      split
      · have hmerge : c₁.Mergeable u v := he.mergeable huv hphys hadj
        have hclasses := h.classes.of_core hcore
        obtain ⟨g, nodes, hjoin, hnodes, hcore₁, hw₁, hsimplify, hlow⟩ :=
          merge_spec hclasses h.colors hw hmerge he.unready.1 he.unready.2
        have hstill : Node.isPhysical u = false → (c₁.merge u v).Free u := by
          intro hp
          refine ⟨by simpa [Node.isPhysical] using hp, ?_, ?_, ?_⟩
          · rw [hcore₁.size]
            exact he.known.1
          · rw [hcore₁.merged]
            change (c.merged.insert v).contains u = false
            rw [NatSet.contains_insert, he.unmerged.1, Bool.false_or, beq_eq_false_iff_ne]
            exact fun hvu => huv hvu.symm
          · rw [hcore₁.stacked]
            exact he.untaken.1
        have hdone := hw₁.release hstill (by rw [hcore₁.stacked]; exact he.untaken.1) hsimplify hlow
        have hcore₂ := hcore₁.trans (sameCore_release _ u)
        have hstands : ∃ p ∈ c₁.graph.moves, u = c₁.aliasOf p.1 ∨ u = c₁.aliasOf p.2 := by
          obtain ⟨p, hp, hu⟩ := he.stands huv
          refine ⟨p, hp, ?_⟩
          rwa [aliasOf_congr hcore.merged hcore.mergedInto, aliasOf_congr hcore.merged hcore.mergedInto]
        have hgrow : Grows c (c₁.mergedState g u v) :=
          ⟨rfl, rfl, rfl, fun a b hab => (hjoin.adjacent a b).2 (.inl hab), hjoin.moves, fun _ hc =>
            Confined.mergedState (hc.of_eq rfl rfl rfl) hclasses hmerge hjoin hnodes hstands⟩
        exact ⟨⟨(hclasses.merge hmerge hjoin hnodes).of_core hcore₂, hdone,
          hcore₂.colorCount ▸ h.colors⟩, hgrow.trans hcore₂.grows⟩
      · -- The copy waits for a degree to fall: it is in play as before.
        have hcore' : SameCore c { c₁ with activeMoves := c₁.activeMoves.insert m } := by
          constructor <;> rfl
        have hsame : ∀ k, ({ c₁ with activeMoves := c₁.activeMoves.insert m } : Coloring).InPlay k ↔
            c.InPlay k := by
          intro k
          simp only [hc₁, Coloring.unpend, InPlay, contains_erase_iff, contains_insert_iff]
          by_cases hkm : k = m
          · subst hkm
            simp only [ne_eq, not_true_eq_false, and_false, or_true, true_iff]
            exact hm
          · simp [hkm]
        refine ⟨h.of_core hcore' (h.lists.without hcore' rfl hsame rfl (fun _ hk => hk)
          fun _ hk => hk), hcore'.grows⟩

/-- Trying a copy keeps all. -/
theorem Sound.coalesce {m : Nat} (h : c.Sound) (hm : c.pendingMoves.contains m = true) :
    (c.coalesce m).Sound ∧ Grows c (c.coalesce m) := by
  obtain ⟨hends, hends'⟩ := h.ends (.inl hm)
  rw [coalesce_eq]
  split
  · exact h.tryMerge (.inl hm) hends'
  · exact h.tryMerge (.inl hm) hends

/-- The best of some nodes is one of them. -/
theorem mem_of_best? {nodes : List Nat} (h : c.best? nodes = some n) : n ∈ nodes := by
  have hfold : ∀ (rest : List Nat) (best : Nat),
      rest.foldl (fun best m => if c.outweighs m best then m else best) best ∈ best :: rest := by
    intro rest
    induction rest with
    | nil => exact fun best => List.mem_cons_self
    | cons m rest ih =>
      intro best
      have hmem := ih (if c.outweighs m best then m else best)
      rw [List.foldl_cons]
      rcases List.mem_cons.1 hmem with heq | hmem
      · rw [heq]
        split <;> simp
      · exact List.mem_cons_of_mem _ (List.mem_cons_of_mem _ hmem)
  cases nodes with
  | nil => cases h
  | cons first rest =>
    obtain rfl := Option.some.inj h
    exact hfold rest first

/-- A node that is taken in the hope of a colour has a high degree. -/
theorem contains_of_spillCandidate? (h : c.spillCandidate? = some n) : c.spillList.contains n = true := by
  simp only [spillCandidate?, List.partition_eq_filter_filter, Option.orElse_eq_or, Option.or_eq_some_iff] at h
  rcases h with h | ⟨-, h⟩
  · exact NatSet.mem_toList.1 (List.mem_of_mem_filter (mem_of_best? h))
  · exact NatSet.mem_toList.1 (List.mem_of_mem_filter (mem_of_best? h))

/-- Every step keeps lists and classes and loses no edge. -/
theorem sound_of_step (h : c.Sound) (hs : c.step? = some c') : c'.Sound ∧ Grows c c' := by
  unfold step? at hs
  split at hs
  · rename_i n hn
    obtain rfl := Option.some.inj hs
    exact h.simplify (NatSet.contains_of_min? hn)
  · split at hs
    · rename_i m hm
      obtain rfl := Option.some.inj hs
      exact h.coalesce (NatSet.contains_of_min? hm)
    · split at hs
      · rename_i n hn
        obtain rfl := Option.some.inj hs
        exact h.freeze (NatSet.contains_of_min? hn)
      · rw [Option.map_eq_some_iff] at hs
        obtain ⟨n, hn, rfl⟩ := hs
        exact h.hope (contains_of_spillCandidate? hn)

theorem sound_runWithin (limit : Nat) (h : c.Sound) : (runWithin limit c).Sound ∧ Grows c (runWithin limit c) := by
  induction limit generalizing c with
  | zero => exact ⟨h, (SameCore.refl c).grows⟩
  | succ limit ih =>
    rw [runWithin]
    split
    · rename_i next hs
      obtain ⟨hnext, hgrow⟩ := sound_of_step h hs
      obtain ⟨hend, hgrow'⟩ := ih hnext
      exact ⟨hend, hgrow.trans hgrow'⟩
    · exact ⟨h, (SameCore.refl c).grows⟩

/-! ## The start -/

/-- The copies listed by node. -/
def listMoves (moves : List ((Nat × Nat) × Nat)) (lists : Array NatSet) : Array NatSet :=
  moves.foldl (fun list ((d, s), m) => (list.modify d (·.insert m)).modify s (·.insert m)) lists

/-- Listing copies changes no number of nodes. -/
theorem size_listMoves (moves : List ((Nat × Nat) × Nat)) (lists : Array NatSet) :
    (listMoves moves lists).size = lists.size := by
  induction moves generalizing lists with
  | nil => rfl
  | cons p moves ih =>
    rw [listMoves, List.foldl_cons]
    exact (ih _).trans (by simp)

/-- Putting a copy on the list of a node. -/
theorem contains_modify_insert {lists : Array NatSet} {d : Nat} (hd : d < lists.size) (k n m : Nat) :
    ((lists.modify d (·.insert k)).getD n .empty).contains m = true ↔
      (lists.getD n .empty).contains m = true ∨ (n = d ∧ m = k) := by
  rw [getD_modify]
  by_cases hdn : d = n
  · rw [if_pos ⟨hdn, hd⟩, contains_insert_iff]
    simp [hdn]
  · rw [if_neg fun h => hdn h.1]
    simp [Ne.symm hdn]

/-- A copy is listed with its ends. -/
theorem contains_listMoves (moves : List ((Nat × Nat) × Nat)) (lists : Array NatSet)
    (hbound : ∀ p ∈ moves, p.1.1 < lists.size ∧ p.1.2 < lists.size) (n m : Nat) :
    ((listMoves moves lists).getD n .empty).contains m = true ↔
      (lists.getD n .empty).contains m = true ∨ ∃ p ∈ moves, m = p.2 ∧ (n = p.1.1 ∨ n = p.1.2) := by
  induction moves generalizing lists with
  | nil => simp [listMoves]
  | cons p moves ih =>
    have hds := hbound p List.mem_cons_self
    have hsize : ((lists.modify p.1.1 (·.insert p.2)).modify p.1.2 (·.insert p.2)).size = lists.size := by
      simp
    have hrest := ih ((lists.modify p.1.1 (·.insert p.2)).modify p.1.2 (·.insert p.2)) fun q hq => by
      rw [hsize]
      exact hbound q (List.mem_cons_of_mem _ hq)
    rw [contains_modify_insert (by simpa using hds.2), contains_modify_insert hds.1] at hrest
    refine hrest.trans ?_
    constructor
    · rintro (((h | ⟨hn, hm⟩) | ⟨hn, hm⟩) | ⟨q, hq, h⟩)
      · exact .inl h
      · exact .inr ⟨p, List.mem_cons_self, hm, .inl hn⟩
      · exact .inr ⟨p, List.mem_cons_self, hm, .inr hn⟩
      · exact .inr ⟨q, List.mem_cons_of_mem _ hq, h⟩
    · rintro (h | ⟨q, hq, hm, hn⟩)
      · exact .inl (.inl (.inl h))
      · rcases List.mem_cons.1 hq with rfl | hq
        · rcases hn with hn | hn
          · exact .inl (.inl (.inr ⟨hn, hm⟩))
          · exact .inl (.inr ⟨hn, hm⟩)
        · exact .inr ⟨q, hq, hm, hn⟩

/-- A free node that is on no list yet is put on the list that fits it. -/
theorem Worklists.enlist (h : c.Worklists fun _ => False) (hfree : c.Free n)
    (hsimplify : c.simplifyList.contains n = false) (hfreeze : c.freezeList.contains n = false)
    (hspill : c.spillList.contains n = false) : (c.enlist n).Worklists fun _ => False := by
  have hoff : ∀ {s : NatSet} {k : Nat}, s.contains n = false → s.contains k = true → k ≠ n := by
    rintro s k hs hk rfl
    exact Bool.noConfusion (hs.symm.trans hk)
  have hinsert : ∀ {s : NatSet} {k : Nat}, s.contains k = false → k ≠ n → (s.insert n).contains k = false := by
    intro s k hs hkn
    rw [NatSet.contains_insert, hs, Bool.false_or, beq_eq_false_iff_ne]
    exact hkn.symm
  unfold Coloring.enlist
  split
  · rename_i hsig
    set c₁ : Coloring := { c with spillList := c.spillList.insert n } with hc₁
    have hcore : SameCore c c₁ := by constructor <;> rfl
    obtain ⟨hlisted, howned⟩ := hcore.copies h fun _ => id
    refine ⟨fun k hk => (h.simplify_free k hk).of_core hcore,
      fun k hk => (h.freeze_free k hk).of_core hcore, ?_, h.simplify_freeze,
      fun k hk => hinsert (h.simplify_spill k hk) (hoff hsimplify hk),
      fun k hk => hinsert (h.freeze_spill k hk) (hoff hfreeze hk),
      h.idle, h.related, h.low, ?_, hlisted, howned⟩
    · intro k hk
      rcases (contains_insert_iff _ n k).1 hk with hk | rfl
      · exact (h.spill_free k hk).of_core hcore
      · exact hfree.of_core hcore
    · intro k hk
      rcases (contains_insert_iff _ n k).1 hk with hk | rfl
      · exact h.high k hk
      · exact of_decide_eq_true hsig
  · rename_i hsig
    split
    · rename_i hrel
      set c₁ : Coloring := { c with freezeList := c.freezeList.insert n } with hc₁
      have hcore : SameCore c c₁ := by constructor <;> rfl
      obtain ⟨hlisted, howned⟩ := hcore.copies h fun _ => id
      refine ⟨fun k hk => (h.simplify_free k hk).of_core hcore, ?_,
        fun k hk => (h.spill_free k hk).of_core hcore,
        fun k hk => hinsert (h.simplify_freeze k hk) (hoff hsimplify hk), h.simplify_spill, ?_,
        h.idle, ?_, ?_, h.high, hlisted, howned⟩
      · intro k hk
        rcases (contains_insert_iff _ n k).1 hk with hk | rfl
        · exact (h.freeze_free k hk).of_core hcore
        · exact hfree.of_core hcore
      · intro k hk
        rcases (contains_insert_iff _ n k).1 hk with hk | rfl
        · exact h.freeze_spill k hk
        · exact hspill
      · intro k hk hb
        rcases (contains_insert_iff _ n k).1 hk with hk | rfl
        · exact h.related k hk hb
        · exact hrel
      · intro k hk hb
        rcases (contains_insert_iff _ n k).1 hk with hk | rfl
        · exact h.low k hk hb
        · exact Nat.lt_of_not_le fun hle => hsig (decide_eq_true hle)
    · rename_i hrel
      set c₁ : Coloring := { c with simplifyList := c.simplifyList.insert n } with hc₁
      have hcore : SameCore c c₁ := by constructor <;> rfl
      obtain ⟨hlisted, howned⟩ := hcore.copies h fun _ => id
      refine ⟨?_, fun k hk => (h.freeze_free k hk).of_core hcore,
        fun k hk => (h.spill_free k hk).of_core hcore, ?_, ?_, h.freeze_spill, ?_, h.related, h.low,
        h.high, hlisted, howned⟩
      · intro k hk
        rcases (contains_insert_iff _ n k).1 hk with hk | rfl
        · exact (h.simplify_free k hk).of_core hcore
        · exact hfree.of_core hcore
      · intro k hk
        rcases (contains_insert_iff _ n k).1 hk with hk | rfl
        · exact h.simplify_freeze k hk
        · exact hfreeze
      · intro k hk
        rcases (contains_insert_iff _ n k).1 hk with hk | rfl
        · exact h.simplify_spill k hk
        · exact hspill
      · intro k hk hb
        rcases hk with hk | hk
        · rcases (contains_insert_iff _ n k).1 hk with hk | rfl
          · exact h.idle k (.inl hk) hb
          · exact (Bool.not_eq_true _).mp hrel
        · exact h.idle k (.inr hk) hb

/-- Putting a node on a list keeps the core. -/
theorem sameCore_enlist (c : Coloring) (n : Nat) : SameCore c (c.enlist n) := by
  unfold Coloring.enlist
  split
  · constructor <;> rfl
  · split <;> constructor <;> rfl

/-- A node is on no list. -/
def Unlisted (c : Coloring) (n : Nat) : Prop :=
  c.simplifyList.contains n = false ∧ c.freezeList.contains n = false ∧ c.spillList.contains n = false

/-- Putting a node on a list puts no other one there. -/
theorem Unlisted.enlist (h : c.Unlisted k) (hkn : k ≠ n) : (c.enlist n).Unlisted k := by
  have hinsert : ∀ {s : NatSet}, s.contains k = false → (s.insert n).contains k = false := by
    intro s hs
    rw [NatSet.contains_insert, hs, Bool.false_or, beq_eq_false_iff_ne]
    exact hkn.symm
  unfold Coloring.enlist
  split
  · exact ⟨h.1, h.2.1, hinsert h.2.2⟩
  · split
    · exact ⟨h.1, hinsert h.2.1, h.2.2⟩
    · exact ⟨hinsert h.1, h.2.1, h.2.2⟩

/-- Putting different free nodes on their lists keeps core and lists. -/
theorem Worklists.foldl_enlist (nodes : List Nat) (h : c.Worklists fun _ => False)
    (hnodup : nodes.Nodup) (hnodes : ∀ n ∈ nodes, c.Free n ∧ c.Unlisted n) :
    SameCore c (nodes.foldl Coloring.enlist c) ∧
      (nodes.foldl Coloring.enlist c).Worklists fun _ => False := by
  induction nodes generalizing c with
  | nil => exact ⟨.refl c, h⟩
  | cons n nodes ih =>
    obtain ⟨hfree, hun⟩ := hnodes n List.mem_cons_self
    obtain ⟨hfresh, hnodup'⟩ := List.nodup_cons.1 hnodup
    have hcore := sameCore_enlist c n
    obtain ⟨hcore', hw⟩ := ih (h.enlist hfree hun.1 hun.2.1 hun.2.2) hnodup' (fun k hk => by
      obtain ⟨hfree', hun'⟩ := hnodes k (List.mem_cons_of_mem _ hk)
      refine ⟨hfree'.of_core hcore, hun'.enlist ?_⟩
      rintro rfl
      exact hfresh hk)
    exact ⟨hcore.trans hcore', hw⟩

/-- The state before nodes are put on lists. -/
def unlisted (mf : MachineFunction) (budget : RegisterSet) (graph : Interference) : Coloring :=
  let nodes := graph.neighbours.size
  let moves := graph.moves.toList.zipIdx
  { graph, budget
    colorCount := budget.size
    degree := Array.ofFn fun n : Fin nodes =>
      if Node.isPhysical n.val then unbounded else (graph.neighbours.getD n.val .empty).size
    mergedInto := Array.range nodes
    temps := ⟨mf.spillTemps.mask <<< Node.firstVirtual⟩
    moveList := listMoves moves (Array.replicate nodes NatSet.empty)
    pendingMoves := .below moves.length
    colors := Array.replicate nodes none }

/-- The start puts the virtual nodes on their lists. -/
theorem start_eq (mf : MachineFunction) (budget : RegisterSet) (graph : Interference) : start mf budget graph =
      (List.range' Node.firstVirtual (graph.neighbours.size - Node.firstVirtual)).foldl Coloring.enlist
        (unlisted mf budget graph) := rfl

section Start

variable (mf : MachineFunction) {budget : RegisterSet} {graph : Interference} {nodes : Nat}

/-- At the start every node stands for itself. -/
theorem aliasOf_unlisted (budget : RegisterSet) (graph : Interference) (n : Nat) : (unlisted mf budget graph).aliasOf n = n :=
  Classes.aliasOf_of_unmerged (NatSet.contains_empty n)

/-- At the start the classes put no node in the place of another one. -/
theorem confined_unlisted (budget : RegisterSet) {nodes : Nat → Prop} (h : graph.Within nodes) :
    (unlisted mf budget graph).Confined nodes :=
  ⟨h, fun n hn => by rwa [aliasOf_unlisted]⟩

variable (hg : Interference.Built budget nodes graph)

include hg

/-- At the start nothing is merged and nothing is taken. -/
theorem classes_unlisted (hnodes : Node.firstVirtual ≤ nodes) : (unlisted mf budget graph).Classes := by
  have hsize : (unlisted mf budget graph).degree.size = graph.neighbours.size := Array.size_ofFn
  have halias := aliasOf_unlisted mf budget graph
  refine
    { size_into := Array.size_range.trans hsize.symm
      size_moves := ?_
      size_graph := hsize.symm
      size_colors := Array.size_replicate.trans hsize.symm
      physical_known := by rw [hsize, hg.size]; exact hnodes
      simple := hg.simple
      moves_lt := by rw [hsize, hg.size]; exact hg.moves_lt
      moves_budget := hg.moves_budget
      merged_virtual := fun n hn => Bool.noConfusion ((NatSet.contains_empty n).symm.trans hn)
      settles := fun n => NatSet.contains_empty _
      mem_stack := fun n => ?_
      nodup := List.nodup_nil
      stacked_ok := fun n hn => Bool.noConfusion ((NatSet.contains_empty n).symm.trans hn)
      alias_lt := fun n hn => by rwa [halias]
      alias_budget := fun n hn r hr => ?_
      uncolored := fun n => ?_
      apart := fun a b hab => by rw [halias, halias]; exact hg.simple.irrefl hab
      near := fun a b hab _ _ => by rw [halias, halias]; exact hab
      seen := fun a b _ l l' hsplit _ => by cases l <;> cases hsplit }
  · exact (size_listMoves _ _).trans (Array.size_replicate.trans hsize.symm)
  · change n ∈ [] ↔ NatSet.empty.contains n = true
    rw [NatSet.contains_empty]
    simp
  · rw [halias] at hr
    have hlt : r.toNat < Node.firstVirtual := r.index.isLt
    rw [hr] at hlt
    exact absurd hlt (Nat.not_lt.2 hn)
  · change (Array.replicate graph.neighbours.size (none : Option Register)).getD n none = none
    rw [Array.getD_eq_getD_getElem?, Array.getElem?_replicate]
    split <;> rfl

/-- At the start the copies are listed with their ends, and no node is on a list. -/
theorem worklists_unlisted : (unlisted mf budget graph).Worklists fun _ => False := by
  have halias := aliasOf_unlisted mf budget graph
  have hempty : ∀ n, (NatSet.empty).contains n = true → False := fun n hn =>
    Bool.noConfusion ((NatSet.contains_empty n).symm.trans hn)
  have hlist : ∀ n m, ((unlisted mf budget graph).moveList.getD n .empty).contains m = true ↔
      ∃ p, graph.moves.toList[m]? = some p ∧ (n = p.1 ∨ n = p.2) := by
    intro n m
    have hcontains := contains_listMoves graph.moves.toList.zipIdx
      (Array.replicate graph.neighbours.size NatSet.empty) (fun p hp => by
        rw [Array.size_replicate, hg.size]
        exact hg.moves_lt p.1 (Array.mem_toList_iff.1 (List.fst_mem_of_mem_zipIdx hp))) n m
    refine hcontains.trans ?_
    have hnone : (Array.replicate graph.neighbours.size NatSet.empty).getD n .empty = .empty := by
      rw [Array.getD_eq_getD_getElem?, Array.getElem?_replicate]
      split <;> rfl
    rw [hnone]
    constructor
    · rintro (h | ⟨⟨p, k⟩, hp, rfl, hn⟩)
      · exact (hempty m h).elim
      · exact ⟨p, List.mk_mem_zipIdx_iff_getElem?.1 hp, hn⟩
    · rintro ⟨p, hp, hn⟩
      exact .inr ⟨(p, m), List.mk_mem_zipIdx_iff_getElem?.2 hp, rfl, hn⟩
  have hget : ∀ m p, graph.moves.toList[m]? = some p → graph.moves.getD m (0, 0) = p := by
    intro m p hp
    rw [Array.getElem?_toList] at hp
    rw [Array.getD_eq_getD_getElem?, hp]
    rfl
  refine
    { simplify_free := fun n hn => (hempty n hn).elim
      freeze_free := fun n hn => (hempty n hn).elim
      spill_free := fun n hn => (hempty n hn).elim
      simplify_freeze := fun n hn => (hempty n hn).elim
      simplify_spill := fun n hn => (hempty n hn).elim
      freeze_spill := fun n hn => (hempty n hn).elim
      idle := fun n hn => (hn.elim (hempty n) (hempty n)).elim
      related := fun n hn => (hempty n hn).elim
      low := fun n hn => (hempty n hn).elim
      high := fun n hn => (hempty n hn).elim
      listed := ?_
      owned := ?_ }
  · intro m hm e he
    have hlt : m < graph.moves.toList.length := by
      rcases hm with hm | hm
      · have hbelow : (NatSet.below graph.moves.toList.zipIdx.length).contains m = true := hm
        rw [NatSet.contains_below, List.length_zipIdx] at hbelow
        simpa using hbelow
      · exact (hempty m hm).elim
    have hp := List.getElem?_eq_getElem hlt
    rw [halias, hlist]
    refine ⟨_, hp, ?_⟩
    rwa [← hget m _ hp]
  · intro n m _ hnm
    obtain ⟨p, hp, hn⟩ := (hlist n m).1 hnm
    rw [halias, halias]
    change (graph.moves.getD m (0, 0)).1 = n ∨ (graph.moves.getD m (0, 0)).2 = n
    rw [hget m p hp]
    exact hn.imp Eq.symm Eq.symm

/-- The machine starts with sound lists and classes. -/
theorem sound_start (hnodes : Node.firstVirtual ≤ nodes) (hbudget : 0 < budget.size) : (start mf budget graph).Sound ∧
      SameCore (unlisted mf budget graph) (start mf budget graph) := by
  have hclasses := classes_unlisted mf hg hnodes
  have hfree : ∀ n ∈ List.range' Node.firstVirtual (graph.neighbours.size - Node.firstVirtual),
      (unlisted mf budget graph).Free n ∧ (unlisted mf budget graph).Unlisted n := by
    intro n hn
    rw [List.mem_range'_1] at hn
    refine ⟨⟨hn.1, ?_, NatSet.contains_empty n, NatSet.contains_empty n⟩,
      NatSet.contains_empty n, NatSet.contains_empty n, NatSet.contains_empty n⟩
    rw [← hclasses.size_graph]
    change n < graph.neighbours.size
    omega
  obtain ⟨hcore, hw⟩ := (worklists_unlisted mf hg).foldl_enlist _ List.nodup_range' hfree
  rw [start_eq]
  refine ⟨⟨hclasses.of_core hcore, hw, ?_⟩, hcore⟩
  rw [hcore.colorCount]
  exact hbudget

/-- The whole run keeps lists and classes, and the graph it ends with has all edges. -/
theorem sound_run (hnodes : Node.firstVirtual ≤ nodes) (hbudget : 0 < budget.size) : (start mf budget graph).run.Sound ∧
      Grows (unlisted mf budget graph) (start mf budget graph).run := by
  obtain ⟨hstart, hcore⟩ := sound_start mf hg hnodes hbudget
  obtain ⟨hrun, hgrow⟩ := sound_runWithin _ hstart
  exact ⟨hrun, hcore.grows.trans hgrow⟩

end Start

end Coloring

end SsaCompiler
