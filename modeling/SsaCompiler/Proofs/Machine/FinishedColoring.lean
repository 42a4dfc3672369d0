import SsaCompiler.Proofs.Machine.Colors
import Mathlib.Data.Finset.Card
import Mathlib.Tactic.Linarith
import Mathlib.Tactic.Ring

/-!
# The colouring machine takes the whole graph apart

Every free node is on one of the three lists, and every step goes down: a node leaves the lists for good, or it is
made ready to be taken, or there is one pending copy less. Copies become pending again only when a node leaves the
lists. So the machine stops within its limit, and then every node is merged or on the stack.

A node that no instruction mentions has no neighbours and no copies, so it always gets a colour. The nodes that are
given up are therefore mentioned ones.
-/

set_option autoImplicit false

namespace SsaCompiler

namespace Coloring

variable {c c' : Coloring} {busy : Nat → Prop}

/-- A node is on a list. -/
def Listed (c : Coloring) (n : Nat) : Prop := c.simplifyList.contains n = true ∨
  c.freezeList.contains n = true ∨ c.spillList.contains n = true

/-- A node is on a list but not ready to be taken. -/
def Waiting (c : Coloring) (n : Nat) : Prop := c.freezeList.contains n = true ∨ c.spillList.contains n = true

/-- Every free node is on a list. -/
def Covered (c : Coloring) : Prop := ∀ n, c.Free n → c.Listed n

/-- No node joins a list again, no node is made to wait again, and no copy comes into play again. -/
structure Descends (c c' : Coloring) : Prop where
  covered : c'.Covered
  listed : ∀ n, c'.Listed n → c.Listed n
  waiting : ∀ n, c'.Waiting n → c.Waiting n
  plays : ∀ m, c'.InPlay m → c.InPlay m

variable {graph : Interference} {n nodes : Nat} {budget : RegisterSet}

namespace Descends

theorem trans {c₁ c₂ c₃ : Coloring} (h : Descends c₁ c₂) (h' : Descends c₂ c₃) : Descends c₁ c₃ where
  covered := h'.covered
  listed n hn := h.listed n (h'.listed n hn)
  waiting n hn := h.waiting n (h'.waiting n hn)
  plays m hm := h.plays m (h'.plays m hm)

/-- A state goes down to one with the same lists. -/
theorem of_lists (hcov : c.Covered) (hfree : ∀ n, c'.Free n → c.Free n) (hsimplify : c'.simplifyList = c.simplifyList)
    (hfreeze : c'.freezeList = c.freezeList) (hspill : c'.spillList = c.spillList)
    (hplay : ∀ m, c'.InPlay m → c.InPlay m) : Descends c c' := by
  have hlisted : ∀ n, c'.Listed n ↔ c.Listed n := fun n => by rw [Listed, Listed, hsimplify, hfreeze, hspill]
  refine ⟨fun n hn => (hlisted n).2 (hcov n (hfree n hn)), fun n => (hlisted n).1, fun n hn => ?_, hplay⟩
  rwa [Waiting, hfreeze, hspill] at hn

theorem refl (hcov : c.Covered) : Descends c c := .of_lists hcov (fun _ hn => hn) rfl rfl rfl fun _ hm => hm

/-- A waiting node that is made ready, or a node that is. -/
theorem ready (hcov : c.Covered) (hn : c.Listed n) (hcore : SameCore c c') (hplay : ∀ m, c'.InPlay m → c.InPlay m)
    (hsimplify : ∀ k, c'.simplifyList.contains k = true ↔ c.simplifyList.contains k = true ∨ k = n)
    (hfreeze : ∀ k, k ≠ n → c'.freezeList.contains k = c.freezeList.contains k)
    (hspill : ∀ k, k ≠ n → c'.spillList.contains k = c.spillList.contains k) (hout : c'.Waiting n → c.Waiting n) :
    Descends c c' := by
  have hother : ∀ k, k ≠ n → (c'.Listed k ↔ c.Listed k) ∧ (c'.Waiting k ↔ c.Waiting k) := by
    intro k hk
    rw [Listed, Listed, Waiting, Waiting, hsimplify, hfreeze k hk, hspill k hk]
    simp [hk]
  refine ⟨fun k hk => ?_, fun k hk => ?_, fun k hk => ?_, hplay⟩
  · by_cases hkn : k = n
    · exact .inl ((hsimplify k).2 (.inr hkn))
    · refine ((hother k hkn).1).2 (hcov k ⟨hk.virtual, hcore.size ▸ hk.known, hcore.merged ▸ hk.unmerged, ?_⟩)
      exact hcore.stacked ▸ hk.untaken
  · by_cases hkn : k = n
    · exact hkn ▸ hn
    · exact ((hother k hkn).1).1 hk
  · by_cases hkn : k = n
    · exact hkn ▸ hout (hkn ▸ hk)
    · exact ((hother k hkn).2).1 hk

/-- A node loses a neighbour. -/
theorem lowerDegree {n : Nat} (hcov : c.Covered) (hfree : Node.isPhysical n = false → c.Free n)
    (hidle : c.simplifyList.contains n = true → c.moveRelated n = false) : Descends c (c.lowerDegree n) := by
  cases hn : Node.isPhysical n with
  | true =>
    rw [Coloring.lowerDegree, if_pos hn]
    exact .refl hcov
  | false =>
    have hcore := sameCore_lowerDegree c n
    have hplay : ∀ m, (c.lowerDegree n).InPlay m → c.InPlay m := fun m => (inPlay_lowerDegree c n m).1
    have hback : ∀ k, (c.lowerDegree n).Free k → c.Free k := fun k hk =>
      ⟨hk.virtual, hcore.size ▸ hk.known, hcore.merged ▸ hk.unmerged, hcore.stacked ▸ hk.untaken⟩
    have hlists := lists_lowerDegree (c := c) hn
    have hsame : ∀ k, k ≠ n ∨ c.degreeOf n ≠ c.colorCount →
        ((c.lowerDegree n).Listed k ↔ c.Listed k) ∧ ((c.lowerDegree n).Waiting k ↔ c.Waiting k) := by
      intro k hk
      obtain ⟨hs, hf, hp⟩ := (hlists k).1 hk
      rw [Listed, Listed, Waiting, Waiting, hs, hf, hp]
      exact ⟨Iff.rfl, Iff.rfl⟩
    by_cases hd : c.degreeOf n = c.colorCount
    · -- The node is on some list, and it goes to one of the lists of low degree.
      obtain ⟨hspill, hsimp, hfrz⟩ := (hlists n).2 hd
      have hn' := hcov n (hfree hn)
      refine ⟨fun k hk => ?_, fun k hk => ?_, fun k hk => ?_, hplay⟩
      · by_cases hkn : k = n
        · subst hkn
          rw [Listed, hsimp, hfrz]
          cases c.moveRelated k <;> simp
        · exact (hsame k (.inl hkn)).1.2 (hcov k (hback k hk))
      · by_cases hkn : k = n
        · exact hkn ▸ hn'
        · exact (hsame k (.inl hkn)).1.1 hk
      · by_cases hkn : k = n
        · subst hkn
          rw [Waiting, hspill, hfrz, Bool.or_eq_true] at hk
          rcases hk with (hk | hk) | hk
          · exact .inl hk
          · refine hn'.resolve_left fun hs => ?_
            rw [hidle hs] at hk
            cases hk
          · cases hk
        · exact (hsame k (.inl hkn)).2.1 hk
    · exact ⟨fun k hk => (hsame k (.inr hd)).1.2 (hcov k (hback k hk)), fun k => (hsame k (.inr hd)).1.1,
        fun k => (hsame k (.inr hd)).2.1, hplay⟩

/-- Nodes lose a neighbour one after the other. -/
theorem foldl_lowerDegree (nodes : List Nat) : ∀ {c : Coloring}, c.Covered → (c.Worklists fun _ => False) →
    0 < c.colorCount → (∀ t ∈ nodes, t < c.degree.size ∧ c.merged.contains t = false ∧
      c.stacked.contains t = false) → Descends c (nodes.foldl Coloring.lowerDegree c) := by
  induction nodes with
  | nil => exact fun hcov _ _ _ => .refl hcov
  | cons t nodes ih =>
    intro c hcov hw hcolors hnodes
    obtain ⟨hlt, hunmerged, huntaken⟩ := hnodes t List.mem_cons_self
    obtain ⟨hcore, hw'⟩ := hw.foldl_lowerDegree [t] hcolors fun k hk => by
      rw [List.mem_singleton.1 hk]
      exact ⟨hlt, hunmerged, huntaken⟩
    have hone : Descends c (c.lowerDegree t) := .lowerDegree hcov
      (fun hphys => ⟨by simpa [Node.isPhysical] using hphys, hlt, hunmerged, huntaken⟩)
      fun hs => hw.idle t (.inl hs) id
    refine hone.trans (ih hone.covered hw' (hcore.colorCount ▸ hcolors) fun k hk => ?_)
    have hcore' : SameCore c (c.lowerDegree t) := hcore
    rw [hcore'.size, hcore'.merged, hcore'.stacked]
    exact hnodes k (List.mem_cons_of_mem _ hk)

end Descends

/-- Taking a ready node goes down. -/
theorem Sound.descends_simplify (h : c.Sound) (hcov : c.Covered) (hn : c.simplifyList.contains n = true) :
    Descends c (c.simplify n) := by
  have hfree : ∀ k, (c.taken n).Free k → c.Free k ∧ k ≠ n := by
    intro k hk
    have huntaken : (c.stacked.insert n).contains k = false := hk.untaken
    rw [NatSet.contains_insert, Bool.or_eq_false_iff, beq_eq_false_iff_ne] at huntaken
    exact ⟨⟨hk.virtual, hk.known, hk.unmerged, huntaken.1⟩, huntaken.2.symm⟩
  have htaken : Descends c (c.taken n) := by
    refine ⟨fun k hk => ?_, fun k hk => ?_, fun k hk => hk, fun m hm => hm⟩
    · obtain ⟨hk, hkn⟩ := hfree k hk
      exact (hcov k hk).imp_left fun hs => (contains_erase_iff _ n k).2 ⟨hs, hkn⟩
    · exact hk.imp_left fun hs => ((contains_erase_iff _ n k).1 hs).1
  have hsound := h.taken hn
  exact htaken.trans (.foldl_lowerDegree _ htaken.covered hsound.lists h.colors
    fun t ht => hsound.mem_adjacent_spec ht)

/-- Releasing a node goes down. -/
theorem Descends.release (hcov : c.Covered) (hfree : Node.isPhysical n = false → c.Free n) :
    Descends c (c.release n) := by
  have hcore := sameCore_release c n
  unfold Coloring.release at hcore ⊢
  split
  · rename_i hcond
    rw [if_pos hcond] at hcore
    simp only [Bool.and_eq_true, Bool.not_eq_true'] at hcond
    refine .ready hcov (hcov n (hfree hcond.1.1)) hcore (fun m hm => hm) (contains_insert_iff _ n) (fun k hk => ?_)
      (fun _ _ => rfl) fun hout => .inr (hout.resolve_left fun hf => ((contains_erase_iff _ n n).1 hf).2 rfl)
    rw [NatSet.contains_erase, bne_iff_ne.2 hk.symm, Bool.and_true]
  · exact .refl hcov

/-- Giving up a copy goes down. -/
theorem Descends.freezeMove {m : Nat} (u : Nat) (hcov : c.Covered) : Descends c (Coloring.freezeMove u c m) := by
  have hcore := sameCore_freezeMove u c m
  have hplay : ∀ k, (Coloring.freezeMove u c m).InPlay k → c.InPlay k := fun k hk => ((inPlay_freezeMove u c m k).1 hk).1
  unfold Coloring.freezeMove at hcore hplay ⊢
  generalize c.graph.moves.getD m (0, 0) = p at hcore hplay ⊢
  dsimp only at hcore hplay ⊢
  generalize (if c.aliasOf p.2 = c.aliasOf u then c.aliasOf p.1 else c.aliasOf p.2) = v at hcore hplay ⊢
  split
  · rename_i hcond
    rw [if_pos hcond] at hcore hplay
    have hv : c.freezeList.contains v = true := (Bool.and_eq_true_iff.1 hcond).2
    refine .ready hcov (.inr (.inl hv)) hcore hplay (contains_insert_iff _ v) (fun k hk => ?_) (fun _ _ => rfl)
      fun _ => .inl hv
    rw [NatSet.contains_erase, bne_iff_ne.2 hk.symm, Bool.and_true]
  · rename_i hcond
    rw [if_neg hcond] at hplay
    exact .of_lists hcov (fun _ hn => ⟨hn.virtual, hn.known, hn.unmerged, hn.untaken⟩) rfl rfl rfl hplay

/-- Giving up the copies of a node goes down. -/
theorem Descends.freezeMoves (u : Nat) (hcov : c.Covered) : Descends c (c.freezeMoves u) := by
  have hfold : ∀ (moves : List Nat) (c : Coloring), c.Covered → Descends c (moves.foldl (Coloring.freezeMove u) c) := by
    intro moves
    induction moves with
    | nil => exact fun c hcov => .refl hcov
    | cons m moves ih =>
      intro c hcov
      have hone := Descends.freezeMove (m := m) u hcov
      exact hone.trans (ih _ hone.covered)
  rw [freezeMoves_eq]
  exact hfold _ c hcov

/-- Making a waiting node ready goes down, and the node no longer waits. -/
theorem Descends.giveUp (hcov : c.Covered) (hn : c.Waiting n) (hready : Readied c c' n) :
    Descends c (c'.freezeMoves n) ∧ ¬ (c'.freezeMoves n).Waiting n := by
  have hout : ¬ c'.Waiting n := fun hw =>
    hw.elim (fun hf => ((hready.freeze n).1 hf).2 rfl) fun hs => ((hready.spill n).1 hs).2 rfl
  have hkeep : ∀ {s s' : NatSet}, (∀ k, s'.contains k = true ↔ s.contains k = true ∧ k ≠ n) →
      ∀ k, k ≠ n → s'.contains k = s.contains k := by
    intro s s' hs k hk
    rw [Bool.eq_iff_iff, hs]
    exact and_iff_left hk
  have hone : Descends c c' := .ready hcov (.inr hn) hready.core (fun m => (hready.play m).1) hready.simplify
    (hkeep hready.freeze) (hkeep hready.spill) fun hw => absurd hw hout
  have hrest := Descends.freezeMoves n hone.covered
  exact ⟨hone.trans hrest, fun hw => hout (hrest.waiting n hw)⟩

/-- The neighbours of a merged node go over to another one, going down. -/
theorem Descends.foldl_join {u : Nat} (nodes : List Nat) : ∀ {c : Coloring}, c.Covered →
    (c.Worklists fun k => False ∨ k = u) → 0 < c.colorCount → c.graph.Simple →
    c.graph.neighbours.size = c.degree.size → u < c.degree.size →
    (∀ t ∈ nodes, t ≠ u ∧ ¬ False ∧ t < c.degree.size ∧ c.merged.contains t = false ∧
      c.stacked.contains t = false) → Descends c (nodes.foldl (fun c t => (c.connect t u).lowerDegree t) c) := by
  induction nodes with
  | nil => exact fun hcov _ _ _ _ _ _ => .refl hcov
  | cons t nodes ih =>
    intro c hcov hw hcolors hg hsize hu hnodes
    obtain ⟨htu, -, hlt, hunmerged, huntaken⟩ := hnodes t List.mem_cons_self
    obtain ⟨g, hjoin, hcore, hw', -⟩ := hw.foldl_join [t] hcolors hg hsize hu fun k hk => by
      rw [List.mem_singleton.1 hk]
      exact hnodes t List.mem_cons_self
    have hcore₁ := sameCore_connect c t u
    obtain ⟨hsimplify, hfreeze, hspill, -, -⟩ := lists_connect c t u
    have hedge : Descends c (c.connect t u) := .of_lists hcov (fun k hk =>
      ⟨hk.virtual, hcore₁.size ▸ hk.known, hcore₁.merged ▸ hk.unmerged, hcore₁.stacked ▸ hk.untaken⟩)
      hsimplify hfreeze hspill fun m => (inPlay_connect c t u m).1
    have hone : Descends (c.connect t u) ((c.connect t u).lowerDegree t) := by
      refine .lowerDegree hedge.covered (fun hphys => ⟨by simpa [Node.isPhysical] using hphys, hcore₁.size ▸ hlt,
        hcore₁.merged ▸ hunmerged, hcore₁.stacked ▸ huntaken⟩) fun hs => ?_
      rw [moveRelated_connect]
      exact hw.idle t (.inl (hsimplify ▸ hs)) fun hb => hb.elim id htu
    have hcore' : SameCore { c with graph := g } ((c.connect t u).lowerDegree t) := hcore
    refine (hedge.trans hone).trans (ih hone.covered hw' (hcore'.colorCount ▸ hcolors) (hcore'.graph ▸ hjoin.simple)
      ?_ (hcore'.size ▸ hu) fun k hk => ?_)
    · rw [hcore'.graph, hcore'.size]
      exact hjoin.size.trans hsize
    · rw [hcore'.size, hcore'.merged, hcore'.stacked]
      exact hnodes k (List.mem_cons_of_mem _ hk)

/-- Merging goes down. -/
theorem Descends.merge {u v : Nat} (hcov : c.Covered) (hc : c.Classes) (hcolors : 0 < c.colorCount)
    (hw : c.Worklists fun k => (False ∨ k = u) ∨ k = v) (hm : c.Mergeable u v)
    (hu : c.simplifyList.contains u = false) (hv : c.simplifyList.contains v = false) : Descends c (c.merge u v) := by
  obtain ⟨hcore, hw₂, hsimplify, -, hnodes⟩ := joining_spec hc hw hm hv
  have hlists : ∀ k, ((c.joining u v).freezeList.contains k = true → c.freezeList.contains k = true) ∧
      ((c.joining u v).spillList.contains k = true → c.spillList.contains k = true) ∧
      (k ≠ v → (c.joining u v).freezeList.contains k = c.freezeList.contains k ∧
        (c.joining u v).spillList.contains k = c.spillList.contains k) := by
    intro k
    change ((c.unlist v).freezeList.contains k = true → _) ∧ ((c.unlist v).spillList.contains k = true → _) ∧
      (k ≠ v → (c.unlist v).freezeList.contains k = _ ∧ (c.unlist v).spillList.contains k = _)
    unfold Coloring.unlist
    split
    · exact ⟨fun hk => ((contains_erase_iff _ v k).1 hk).1, id, fun hk => ⟨by simp [hk.symm], rfl⟩⟩
    · exact ⟨id, fun hk => ((contains_erase_iff _ v k).1 hk).1, fun hk => ⟨rfl, by simp [hk.symm]⟩⟩
  have hplay : ∀ m, (c.joining u v).InPlay m → c.InPlay m := by
    intro m hk
    have hk' := (inPlay_enableMoves _ m).1 hk
    change (c.unlist v).InPlay m at hk'
    unfold Coloring.unlist at hk'
    split at hk' <;> exact hk'
  have hjoining : Descends c (c.joining u v) := by
    refine ⟨fun k hk => ?_, fun k hk => ?_, fun k hk => ?_, hplay⟩
    · have hmerged := hk.unmerged
      rw [hcore.merged] at hmerged
      change (c.merged.insert v).contains k = false at hmerged
      rw [NatSet.contains_insert, Bool.or_eq_false_iff, beq_eq_false_iff_ne] at hmerged
      obtain ⟨hf, hs⟩ := (hlists k).2.2 hmerged.2.symm
      rw [Listed, hsimplify, hf, hs]
      exact hcov k ⟨hk.virtual, hcore.size ▸ hk.known, hmerged.1, hcore.stacked ▸ hk.untaken⟩
    · rw [Listed, hsimplify] at hk
      exact hk.imp_right fun hk => hk.imp (hlists k).1 (hlists k).2.1
    · exact hk.imp (hlists k).1 (hlists k).2.1
  rw [merge_eq]
  have hjoined : Descends (c.joining u v) (((c.joining u v).adjacent v).toList.foldl
      (fun c t => (c.connect t u).lowerDegree t) (c.joining u v)) :=
    .foldl_join _ hjoining.covered hw₂ (hcore.colorCount ▸ hcolors) (hcore.graph ▸ hc.simple)
      (by rw [hcore.graph, hcore.size]; exact hc.size_graph) (hcore.size ▸ hm.known) hnodes
  refine (hjoining.trans hjoined).trans ?_
  generalize ((c.joining u v).adjacent v).toList.foldl
    (fun c t => (c.connect t u).lowerDegree t) (c.joining u v) = d at hjoined
  unfold Coloring.outgrow
  split
  · rename_i hcond
    have hf := (Bool.and_eq_true_iff.1 hcond).2
    refine ⟨fun k hk => ?_, fun k hk => ?_, fun k hk => ?_, fun m hm => hm⟩
    · by_cases hku : k = u
      · exact .inr (.inr ((contains_insert_iff _ u k).2 (.inr hku)))
      · have hk' : d.Free k := ⟨hk.virtual, hk.known, hk.unmerged, hk.untaken⟩
        exact (hjoined.covered k hk').imp_right fun hw => hw.imp (fun hf => (contains_erase_iff _ u k).2 ⟨hf, hku⟩)
          fun hs => (contains_insert_iff _ u k).2 (.inl hs)
    · rcases hk with hs | hf' | hs
      · exact .inl hs
      · exact .inr (.inl ((contains_erase_iff _ u k).1 hf').1)
      · rcases (contains_insert_iff _ u k).1 hs with hs | rfl
        · exact .inr (.inr hs)
        · exact .inr (.inl hf)
    · rcases hk with hf' | hs
      · exact .inl ((contains_erase_iff _ u k).1 hf').1
      · rcases (contains_insert_iff _ u k).1 hs with hs | rfl
        · exact .inr hs
        · exact .inl hf
  · exact .refl hjoined.covered

/-- Something gets less: a node leaves the lists, a node is made ready, or a copy is no longer pending and none
becomes so. -/
inductive Shrinks (c c' : Coloring) : Prop
  | unlisted (n : Nat) (hn : c.Listed n) (hn' : ¬ c'.Listed n)
  | ready (n : Nat) (hn : c.Waiting n) (hn' : ¬ c'.Waiting n)
  | tried (m : Nat) (hm : c.pendingMoves.contains m = true) (hless : c'.pendingMoves = c.pendingMoves.erase m)

/-- In a sound state a node that is merged or taken is on no list. -/
theorem Sound.not_listed (h : c.Sound) (hn : c.merged.contains n = true ∨ c.stacked.contains n = true) :
    ¬ c.Listed n := by
  intro hlisted
  have hfree : c.Free n := by
    rcases hlisted with hs | hf | hs
    · exact h.lists.simplify_free n hs
    · exact h.lists.freeze_free n hf
    · exact h.lists.spill_free n hs
  rcases hn with hn | hn
  · exact Bool.noConfusion (hfree.unmerged.symm.trans hn)
  · exact Bool.noConfusion (hfree.untaken.symm.trans hn)

/-- Releasing a node leaves the pending copies alone. -/
theorem pendingMoves_release (c : Coloring) (n : Nat) : (c.release n).pendingMoves = c.pendingMoves := by
  unfold release
  split <;> rfl

/-- Trying a copy goes down. -/
theorem Sound.descends_tryMerge {m u v : Nat} (h : c.Sound) (hcov : c.Covered)
    (hm : c.pendingMoves.contains m = true) (he : c.Ends m u v) :
    Descends c ((c.unpend m).tryMerge m u v) ∧ Shrinks c ((c.unpend m).tryMerge m u v) := by
  have hsound := (h.tryMerge (.inl hm) he).1
  have hcore := sameCore_unpend c m
  have hfree : ∀ k, k = u ∨ k = v → Node.isPhysical k = false → (c.unpend m).Free k :=
    fun k hk hphys => (he.free hk hphys).of_core hcore
  have hunpend : Descends c (c.unpend m) := .of_lists hcov
    (fun _ hk => ⟨hk.virtual, hk.known, hk.unmerged, hk.untaken⟩) rfl rfl rfl
    fun k hk => hk.imp_left fun hk => ((contains_erase_iff _ m k).1 hk).1
  have hfirst := Descends.release hunpend.covered (hfree u (.inl rfl))
  unfold Coloring.tryMerge at hsound ⊢
  split
  · exact ⟨hunpend.trans hfirst, .tried m hm (pendingMoves_release _ u)⟩
  · rename_i huv
    rw [if_neg huv] at hsound
    split
    · have hsecond : Descends ((c.unpend m).release u) (((c.unpend m).release u).release v) :=
        .release hfirst.covered fun hphys => (hfree v (.inr rfl) hphys).of_core (sameCore_release _ u)
      exact ⟨(hunpend.trans hfirst).trans hsecond,
        .tried m hm ((pendingMoves_release _ v).trans (pendingMoves_release _ u))⟩
    · rename_i hapart
      rw [if_neg hapart] at hsound
      simp only [Bool.or_eq_true, not_or, Bool.not_eq_true] at hapart
      split
      · rename_i hmay
        rw [if_pos hmay] at hsound
        have hmerge := he.mergeable huv hapart.1 hapart.2
        have hclasses := h.classes.of_core hcore
        obtain ⟨g, nodes, -, -, hcore₁, -⟩ :=
          merge_spec hclasses h.colors (h.unpend he) hmerge he.unready.1 he.unready.2
        have hdown := Descends.merge hunpend.covered hclasses h.colors (h.unpend he) hmerge he.unready.1 he.unready.2
        have hmerged : ∀ k, ((c.unpend m).merge u v).merged.contains k = (c.merged.insert v).contains k := fun k => by
          rw [hcore₁.merged]
          rfl
        have hrelease : Descends ((c.unpend m).merge u v) (((c.unpend m).merge u v).release u) := by
          refine .release hdown.covered fun hphys => ⟨by simpa [Node.isPhysical] using hphys, ?_, ?_, ?_⟩
          · rw [hcore₁.size]
            exact he.known.1
          · rw [hmerged, NatSet.contains_insert, he.unmerged.1, Bool.false_or, beq_eq_false_iff_ne]
            exact fun hvu => huv hvu.symm
          · rw [hcore₁.stacked]
            exact he.untaken.1
        refine ⟨(hunpend.trans hdown).trans hrelease, .unlisted v (hcov v (he.free (.inr rfl) hapart.1))
          (hsound.not_listed (.inl ?_))⟩
        rw [(sameCore_release _ u).merged, hmerged, NatSet.contains_insert, beq_self_eq_true, Bool.or_true]
      · refine ⟨.of_lists hcov (fun _ hk => ⟨hk.virtual, hk.known, hk.unmerged, hk.untaken⟩) rfl rfl rfl
          fun k hk => ?_, .tried m hm rfl⟩
        rcases hk with hk | hk
        · exact .inl ((contains_erase_iff _ m k).1 hk).1
        · rcases (contains_insert_iff _ m k).1 hk with hk | rfl
          · exact .inr hk
          · exact .inl hm

/-- Every step goes down. -/
theorem Sound.descends_of_step (h : c.Sound) (hcov : c.Covered) (hs : c.step? = some c') :
    Descends c c' ∧ Shrinks c c' := by
  have hsound := (sound_of_step h hs).1
  unfold step? at hs
  split at hs
  · rename_i n hn
    have hn' := NatSet.contains_of_min? hn
    obtain rfl := Option.some.inj hs
    refine ⟨h.descends_simplify hcov hn', .unlisted n (.inl hn') (hsound.not_listed (.inr ?_))⟩
    have hcore := (h.taken hn').lists.foldl_lowerDegree ((c.taken n).adjacent n).toList h.colors
      fun t ht => (h.taken hn').mem_adjacent_spec ht
    change (((c.taken n).adjacent n).toList.foldl Coloring.lowerDegree (c.taken n)).stacked.contains n = true
    rw [hcore.1.stacked]
    exact (contains_insert_iff _ n n).2 (.inr rfl)
  · split at hs
    · rename_i m hm
      have hm' := NatSet.contains_of_min? hm
      obtain rfl := Option.some.inj hs
      obtain ⟨hends, hends'⟩ := h.ends (.inl hm')
      rw [coalesce_eq]
      split
      · exact h.descends_tryMerge hcov hm' hends'
      · exact h.descends_tryMerge hcov hm' hends
    · split at hs
      · rename_i n hn
        have hn' := NatSet.contains_of_min? hn
        obtain rfl := Option.some.inj hs
        obtain ⟨hdown, hready⟩ := Descends.giveUp hcov (.inl hn') (readied_of_freeze (h.lists.freeze_spill n hn'))
        exact ⟨hdown, .ready n (.inl hn') hready⟩
      · rw [Option.map_eq_some_iff] at hs
        obtain ⟨n, hn, rfl⟩ := hs
        have hn' := contains_of_spillCandidate? hn
        obtain ⟨hdown, hready⟩ := Descends.giveUp hcov (.inr hn') (readied_of_spill (h.freeze_of_spill hn'))
        exact ⟨hdown, .ready n (.inr hn') hready⟩

/-! ## The whole run -/

instance (c : Coloring) : DecidablePred c.Listed := fun _ => inferInstanceAs (Decidable (_ ∨ _))

instance (c : Coloring) : DecidablePred c.Waiting := fun _ => inferInstanceAs (Decidable (_ ∨ _))

/-- How much is left to do. A node counts for more than all the copies that may be tried again when it goes. -/
def rank (nodes moves : Nat) (c : Coloring) : Nat :=
  (moves + 1) * (((Finset.range nodes).filter c.Listed).card + ((Finset.range nodes).filter c.Waiting).card) +
    ((Finset.range moves).filter fun m => c.pendingMoves.contains m = true).card

/-- There are no more pending copies than copies. -/
theorem card_pending_le (moves : Nat) (c : Coloring) :
    ((Finset.range moves).filter fun m => c.pendingMoves.contains m = true).card ≤ moves := by
  refine (Finset.card_filter_le _ _).trans ?_
  rw [Finset.card_range]

variable {moves : Nat} {function : String}

/-- A node less counts for more than all copies. -/
theorem rank_lt_of_nodes {k k' p p' : Nat} (hk : k' < k) (hp : p' ≤ moves) :
    (moves + 1) * k' + p' < (moves + 1) * k + p := by
  have hmul : (moves + 1) * (k' + 1) ≤ (moves + 1) * k := Nat.mul_le_mul_left _ hk
  rw [Nat.mul_add] at hmul
  omega

/-- Every step lowers the rank. -/
theorem Descends.rank_lt (h : Descends c c') (hless : Shrinks c c') (hnodes : ∀ n, c.Listed n → n < nodes)
    (hmoves : ∀ m, c.InPlay m → m < moves) : c'.rank nodes moves < c.rank nodes moves := by
  have hlisted : (Finset.range nodes).filter c'.Listed ⊆ (Finset.range nodes).filter c.Listed :=
    Finset.monotone_filter_right _ fun n _ => h.listed n
  have hwaiting : (Finset.range nodes).filter c'.Waiting ⊆ (Finset.range nodes).filter c.Waiting :=
    Finset.monotone_filter_right _ fun n _ => h.waiting n
  have hl := Finset.card_le_card hlisted
  have hw := Finset.card_le_card hwaiting
  have hp := card_pending_le moves c'
  unfold rank
  cases hless with
  | unlisted n hn hn' =>
    have hlt := Finset.card_lt_card (hlisted.ssubset_of_mem_notMem
      (Finset.mem_filter.2 ⟨Finset.mem_range.2 (hnodes n hn), hn⟩) fun hmem => hn' (Finset.mem_filter.1 hmem).2)
    exact rank_lt_of_nodes (by omega) hp
  | ready n hn hn' =>
    have hlt := Finset.card_lt_card (hwaiting.ssubset_of_mem_notMem
      (Finset.mem_filter.2 ⟨Finset.mem_range.2 (hnodes n (.inr hn)), hn⟩) fun hmem => hn' (Finset.mem_filter.1 hmem).2)
    exact rank_lt_of_nodes (by omega) hp
  | tried m hm hless =>
    have hsub : ((Finset.range moves).filter fun k => c'.pendingMoves.contains k = true) ⊂
        (Finset.range moves).filter fun k => c.pendingMoves.contains k = true := by
      rw [hless]
      refine Finset.ssubset_iff_subset_ne.2 ⟨Finset.monotone_filter_right _ fun k _ hk =>
        ((contains_erase_iff _ m k).1 hk).1, fun heq => ?_⟩
      have hmem : m ∈ (Finset.range moves).filter fun k => (c.pendingMoves.erase m).contains k = true := by
        rw [heq]
        exact Finset.mem_filter.2 ⟨Finset.mem_range.2 (hmoves m (.inl hm)), hm⟩
      exact ((contains_erase_iff _ m m).1 (Finset.mem_filter.1 hmem).2).2 rfl
    have hlt := Finset.card_lt_card hsub
    have hmul := Nat.mul_le_mul_left (moves + 1) (Nat.add_le_add hl hw)
    omega

/-- A state in which nothing is left to do has no free node. -/
theorem Covered.not_free_of_step (hcov : c.Covered) (hs : c.step? = none) (n : Nat) : ¬ c.Free n := by
  intro hfree
  unfold step? at hs
  split at hs
  · cases hs
  · rename_i hsimplify
    split at hs
    · cases hs
    · split at hs
      · cases hs
      · rename_i hfreeze
        rw [Option.map_eq_none_iff] at hs
        rcases hcov n hfree with hn | hn | hn
        · exact Bool.noConfusion ((NatSet.contains_eq_false_of_min? hsimplify n).symm.trans hn)
        · exact Bool.noConfusion ((NatSet.contains_eq_false_of_min? hfreeze n).symm.trans hn)
        · have hbest : ∀ nodes, c.best? nodes = none → nodes = [] := by
            intro nodes hnone
            cases nodes with
            | nil => rfl
            | cons => cases hnone
          simp only [spillCandidate?, List.partition_eq_filter_filter, Option.orElse_eq_or, Option.or_eq_none_iff] at hs
          have hmem := NatSet.mem_toList.2 hn
          cases htemp : c.temps.contains n with
          | true => exact List.ne_nil_of_mem (List.mem_filter.2 ⟨hmem, htemp⟩) (hbest _ hs.2)
          | false => exact List.ne_nil_of_mem (List.mem_filter.2 ⟨hmem, by simp [htemp]⟩) (hbest _ hs.1)

/-- A machine with a limit above its rank stops by itself. -/
theorem Sound.stops_runWithin (limit : Nat) : ∀ {c : Coloring}, c.Sound → c.Covered →
    c.degree.size = nodes → (∀ m, c.InPlay m → m < moves) → c.rank nodes moves < limit →
    (runWithin limit c).Covered ∧ (runWithin limit c).step? = none := by
  induction limit with
  | zero => exact fun _ _ _ _ hlt => absurd hlt (Nat.not_lt_zero _)
  | succ limit ih =>
    intro c h hcov hsize hmoves hlt
    rw [runWithin]
    split
    · rename_i next hs
      obtain ⟨hdown, hless⟩ := h.descends_of_step hcov hs
      obtain ⟨hnext, hgrow⟩ := sound_of_step h hs
      have hlisted : ∀ n, c.Listed n → n < nodes := by
        rintro n (hn | hn | hn)
        · exact hsize ▸ (h.lists.simplify_free n hn).known
        · exact hsize ▸ (h.lists.freeze_free n hn).known
        · exact hsize ▸ (h.lists.spill_free n hn).known
      have hrank := hdown.rank_lt hless hlisted hmoves
      exact ih hnext hdown.covered (hgrow.size.trans hsize) (fun m hm => hmoves m (hdown.plays m hm)) (by omega)
    · rename_i hs
      exact ⟨hcov, hs⟩

/-- The limit of a run is above the rank of every state. -/
theorem rank_lt_limit (nodes moves : Nat) (c : Coloring) :
    c.rank nodes moves < (nodes + moves + 2) * (nodes + moves + 2) * (nodes + moves + 2) := by
  have hl := (Finset.card_filter_le (Finset.range nodes) c.Listed).trans_eq (Finset.card_range nodes)
  have hw := (Finset.card_filter_le (Finset.range nodes) c.Waiting).trans_eq (Finset.card_range nodes)
  have hp := card_pending_le moves c
  have hmul := Nat.mul_le_mul_left (moves + 1) (Nat.add_le_add hl hw)
  unfold rank
  nlinarith [Nat.zero_le (nodes * nodes * nodes), Nat.zero_le (nodes * nodes * moves),
    Nat.zero_le (nodes * moves * moves), Nat.zero_le (moves * moves * moves), Nat.zero_le (nodes * moves),
    Nat.zero_le (nodes * nodes), Nat.zero_le (moves * moves)]

/-- Putting nodes on lists leaves none of them behind. -/
theorem listed_foldl_enlist (nodes : List Nat) (c : Coloring) (n : Nat) (hn : c.Listed n ∨ n ∈ nodes) :
    (nodes.foldl Coloring.enlist c).Listed n := by
  induction nodes generalizing c with
  | nil => exact hn.resolve_right List.not_mem_nil
  | cons k nodes ih =>
    refine ih (c.enlist k) (or_iff_not_imp_right.2 fun hrest => ?_)
    unfold Coloring.enlist Listed
    rw [List.mem_cons, ← or_assoc, or_iff_left hrest] at hn
    unfold Listed at hn
    split
    · simp only [contains_insert_iff]
      tauto
    · split <;> simp only [contains_insert_iff] <;> tauto

/-- Putting nodes on lists brings no copy into play. -/
theorem inPlay_foldl_enlist (nodes : List Nat) (c : Coloring) (m : Nat) :
    (nodes.foldl Coloring.enlist c).InPlay m ↔ c.InPlay m := by
  induction nodes generalizing c with
  | nil => exact Iff.rfl
  | cons n nodes ih =>
    refine (ih (c.enlist n)).trans ?_
    unfold Coloring.enlist
    split
    · exact Iff.rfl
    · split <;> exact Iff.rfl

section

variable (mf : MachineFunction) (hg : Interference.Built budget nodes graph) (hnodes : Node.firstVirtual ≤ nodes)
    (hbudget : 0 < budget.size)

include mf hg hnodes hbudget

/-- At the start every free node is on a list. -/
theorem covered_start : (start mf budget graph).Covered := by
  obtain ⟨-, hcore⟩ := sound_start mf hg hnodes hbudget
  have hsize : (start mf budget graph).degree.size = graph.neighbours.size := hcore.size.trans Array.size_ofFn
  intro k hk
  rw [start_eq]
  refine listed_foldl_enlist _ _ k (.inr (List.mem_range'_1.2 ⟨hk.virtual, ?_⟩))
  have := hk.known
  have := hk.virtual
  omega

/-- The run goes on until nothing is left to do. -/
theorem stopped_run : (start mf budget graph).run.Covered ∧ (start mf budget graph).run.step? = none := by
  obtain ⟨hstart, hcore⟩ := sound_start mf hg hnodes hbudget
  have hcov := covered_start mf hg hnodes hbudget
  have hmoves : ∀ m, (start mf budget graph).InPlay m → m < graph.moves.size := by
    intro m hm
    rw [start_eq, inPlay_foldl_enlist] at hm
    rcases hm with hm | hm
    · have hbelow : (NatSet.below graph.moves.toList.zipIdx.length).contains m = true := hm
      rwa [NatSet.contains_below, List.length_zipIdx, Array.length_toList] at hbelow
    · exact Bool.noConfusion ((NatSet.contains_empty m).symm.trans hm)
  have hgraph : (start mf budget graph).graph = graph := hcore.graph
  unfold Coloring.run
  dsimp only
  rw [hgraph]
  exact hstart.stops_runWithin _ hcov rfl hmoves (rank_lt_limit _ _ _)

/-- The run takes the whole graph apart: every node is merged or on the stack. -/
theorem not_free_run (n : Nat) : ¬ (start mf budget graph).run.Free n := by
  obtain ⟨hcov, hstop⟩ := stopped_run mf hg hnodes hbudget
  exact hcov.not_free_of_step hstop n

end

/-! ## Every node gets its colour -/

/-- Handing out colours fails only for want of a register for a temporary. -/
theorem assignColors_total (function : String) (stack : List Nat) (spilled : NatSet) (c : Coloring) :
    (∃ r, assignColors function stack spilled c = .ok r) ∨ ∃ fault,
      assignColors function stack spilled c = .error (.error (.registerAllocation function fault)) := by
  induction stack generalizing spilled c with
  | nil => exact .inl ⟨_, rfl⟩
  | cons n rest ih =>
    rw [assignColors]
    dsimp only
    split
    · exact ih _ _
    · split
      · split
        · exact ih _ _
        · exact .inr ⟨_, rfl⟩
      · exact ih _ _

/-- When no node is given up, all nodes of the stack get colours. -/
theorem isSome_of_assignColors {stack : List Nat} :
    ∀ {spilled spilled' : NatSet} {c c' : Coloring}, (∀ n ∈ stack, n < c.colors.size) →
      assignColors function stack spilled c = .ok (spilled', c') → spilled'.isEmpty = true →
      ∀ n, n ∈ stack ∨ (c.colors.getD n none).isSome = true → (c'.colors.getD n none).isSome = true := by
  induction stack with
  | nil =>
    intro spilled spilled' c c' _ h _ n hn
    cases h
    exact hn.resolve_left List.not_mem_nil
  | cons k rest ih =>
    intro spilled spilled' c c' hstack h hempty n hn
    obtain ⟨r, hr, h⟩ := exists_color_of_assignColors h hempty
    refine ih (fun j hj => ?_) h hempty n ?_
    · rw [Array.size_setIfInBounds]
      exact hstack j (List.mem_cons_of_mem _ hj)
    · rw [List.mem_cons, or_assoc] at hn
      rw [Liveness.getD_setIfInBounds]
      rcases hn with rfl | hn | hn
      · exact .inr (by rw [if_pos ⟨rfl, hstack n List.mem_cons_self⟩]; rfl)
      · exact .inl hn
      · refine .inr ?_
        split
        · rfl
        · exact hn

/-- When the nodes of the stack have colours and every other node is merged, all virtual registers have
registers. -/
theorem assignment_total {c₀ : Coloring} (hclasses : c₀.Classes) (hplan : SamePlan c₀ c) (hfree : ∀ n, ¬ c₀.Free n)
    (hcolors : ∀ n ∈ c₀.stack, (c.colors.getD n none).isSome = true) :
    ∃ registers, c.assignment function = .ok registers := by
  refine Outcome.exists_mapM fun n hn => ?_
  have hsome : (c.colorOf? (c.aliasOf n)).isSome = true := by
    rw [hplan.aliasOf]
    unfold colorOf?
    split
    · rename_i hphys
      have hlt : c₀.aliasOf n < 32 := of_decide_eq_true hphys
      rw [Register.ofNat?, dif_pos hlt]
      rfl
    · rename_i hphys
      refine hcolors _ ((hclasses.mem_stack _).2 ?_)
      by_contra huntaken
      rw [List.mem_range'_1] at hn
      have hlt : n < c₀.degree.size := by
        have hsize := hplan.size
        omega
      exact hfree _ ⟨by simpa [Node.isPhysical] using hphys, hclasses.alias_lt n hlt,
        hclasses.unmerged_aliasOf n, by simpa using huntaken⟩
  obtain ⟨r, hr⟩ := Option.isSome_iff_exists.1 hsome
  exact ⟨r, by rw [hr]; rfl⟩

/-- When a round gives no node up, it finds registers. -/
theorem assignment_of_assignColors (mf : MachineFunction) (hg : Interference.Built budget nodes graph)
    (hnodes : Node.firstVirtual ≤ nodes) (hbudget : 0 < budget.size) {spilled : NatSet}
    (hcolors : assignColors mf.name (start mf budget graph).run.stack .empty
      (start mf budget graph).run = .ok (spilled, c)) (hempty : spilled.isEmpty = true) :
    ∃ registers, c.assignment mf.name = .ok registers := by
  obtain ⟨hrun, hgrows⟩ := sound_run mf hg hnodes hbudget
  obtain ⟨hplan, -⟩ := assignColors_spec hrun.classes (hgrows.budget ▸ hbudget) (fun _ hn => hn) (.refl _) hcolors
  have hstack : ∀ n ∈ (start mf budget graph).run.stack, n < (start mf budget graph).run.colors.size := by
    intro n hn
    rw [hrun.classes.size_colors]
    exact (hrun.classes.stacked_ok n ((hrun.classes.mem_stack n).1 hn)).2.1
  exact assignment_total hrun.classes hplan (not_free_run mf hg hnodes hbudget) fun n hn =>
    isSome_of_assignColors hstack hcolors hempty n (.inl hn)

end Coloring

end SsaCompiler
