import SsaCompiler.Machine.Coloring
import SsaCompiler.Proofs.Machine.Conflicts
import Mathlib.Data.Finset.Card

/-!
# The lists of the colouring machine

What every step keeps about the lists of nodes and copies: the three lists of nodes hold virtual nodes
that are neither taken nor merged and have no node in common; a node that is taken or about to be has
no copies left; a copy that is still in play is listed with the nodes that stand for its ends.

A step may pass through states in which one or two nodes are between lists. `Worklists` therefore
speaks of all nodes but the `busy` ones, and each step ends by closing them.
-/

set_option autoImplicit false

namespace SsaCompiler

namespace Coloring

/-- A copy may still be merged. -/
def InPlay (c : Coloring) (m : Nat) : Prop :=
  c.pendingMoves.contains m = true ∨ c.activeMoves.contains m = true

/-- A virtual node that is neither taken nor merged. -/
structure Free (c : Coloring) (n : Nat) : Prop where
  virtual : Node.firstVirtual ≤ n
  known : n < c.degree.size
  unmerged : c.merged.contains n = false
  untaken : c.stacked.contains n = false

/-- What holds of the lists, the busy nodes apart. -/
structure Worklists (c : Coloring) (busy : Nat → Prop) : Prop where
  simplify_free : ∀ n, c.simplifyList.contains n = true → c.Free n
  freeze_free : ∀ n, c.freezeList.contains n = true → c.Free n
  spill_free : ∀ n, c.spillList.contains n = true → c.Free n
  simplify_freeze : ∀ n, c.simplifyList.contains n = true → c.freezeList.contains n = false
  simplify_spill : ∀ n, c.simplifyList.contains n = true → c.spillList.contains n = false
  freeze_spill : ∀ n, c.freezeList.contains n = true → c.spillList.contains n = false
  idle : ∀ n, c.simplifyList.contains n = true ∨ c.stacked.contains n = true → ¬ busy n →
    c.moveRelated n = false
  related : ∀ n, c.freezeList.contains n = true → ¬ busy n → c.moveRelated n = true
  low : ∀ n, c.freezeList.contains n = true → ¬ busy n → c.degreeOf n < c.colorCount
  high : ∀ n, c.spillList.contains n = true → c.colorCount ≤ c.degreeOf n
  /-- Copies in play are listed with the nodes that stand for their ends. -/
  listed : ∀ m, c.InPlay m → ∀ e, e = (c.graph.moves.getD m (0, 0)).1 ∨ e = (c.graph.moves.getD m (0, 0)).2 →
    (c.moveList.getD (c.aliasOf e) .empty).contains m = true
  /-- A node that stands for itself lists copies only if it stands for one of their ends. -/
  owned : ∀ n m, c.merged.contains n = false → (c.moveList.getD n .empty).contains m = true →
    c.aliasOf (c.graph.moves.getD m (0, 0)).1 = n ∨ c.aliasOf (c.graph.moves.getD m (0, 0)).2 = n

variable {c c' : Coloring} {busy busy' : Nat → Prop}

variable {n : Nat}

/-- A node is related to copies when one that it lists is in play. -/
theorem moveRelated_iff : c.moveRelated n = true ↔ ∃ m, (c.moveList.getD n .empty).contains m = true ∧ c.InPlay m := by
  rw [moveRelated, Bool.not_eq_true', ← Bool.not_eq_true, NatSet.isEmpty_iff, not_forall]
  apply exists_congr
  intro m
  rw [Bool.not_eq_false, nodeMoves, NatSet.contains_inter, NatSet.contains_union, Bool.and_eq_true,
    Bool.or_eq_true]
  rfl

/-- Being related to copies depends on the list of the node and the copies in play only. -/
theorem moveRelated_congr (hlist : c'.moveList.getD n .empty = c.moveList.getD n .empty)
    (hplay : ∀ m, c'.InPlay m ↔ c.InPlay m) : c'.moveRelated n = c.moveRelated n := by
  rw [Bool.eq_iff_iff, moveRelated_iff, moveRelated_iff, hlist]
  simp only [hplay]

theorem Worklists.mono (h : c.Worklists busy) (hbusy : ∀ n, busy n → busy' n) : c.Worklists busy' :=
  { h with
    idle := fun n hn hb => h.idle n hn fun hb' => hb (hbusy n hb')
    related := fun n hn hb => h.related n hn fun hb' => hb (hbusy n hb')
    low := fun n hn hb => h.low n hn fun hb' => hb (hbusy n hb') }

/-- A busy node is closed when it fits the list that it is on. -/
theorem Worklists.close (h : c.Worklists fun k => busy k ∨ k = n)
    (hidle : c.simplifyList.contains n = true ∨ c.stacked.contains n = true → c.moveRelated n = false)
    (hrelated : c.freezeList.contains n = true → c.moveRelated n = true)
    (hlow : c.freezeList.contains n = true → c.degreeOf n < c.colorCount) : c.Worklists busy :=
  { h with
    idle := fun k hk hb => by
      by_cases hkn : k = n
      · exact hkn ▸ hidle (hkn ▸ hk)
      · exact h.idle k hk fun hb' => hb'.elim hb hkn
    related := fun k hk hb => by
      by_cases hkn : k = n
      · exact hkn ▸ hrelated (hkn ▸ hk)
      · exact h.related k hk fun hb' => hb'.elim hb hkn
    low := fun k hk hb => by
      by_cases hkn : k = n
      · exact hkn ▸ hlow (hkn ▸ hk)
      · exact h.low k hk fun hb' => hb'.elim hb hkn }

variable {m u : Nat}

/-- A copy in play has no end whose node is taken or about to be. -/
theorem Worklists.not_idle (h : c.Worklists fun _ => False) {e : Nat} (hm : c.InPlay m)
    (he : e = (c.graph.moves.getD m (0, 0)).1 ∨ e = (c.graph.moves.getD m (0, 0)).2) :
    c.simplifyList.contains (c.aliasOf e) = false ∧ c.stacked.contains (c.aliasOf e) = false := by
  have hrel : c.moveRelated (c.aliasOf e) = true := moveRelated_iff.2 ⟨m, h.listed m hm e he, hm⟩
  constructor
  · by_contra hs
    have := h.idle _ (.inl (by simpa using hs)) id
    rw [hrel] at this
    cases this
  · by_contra hs
    have := h.idle _ (.inr (by simpa using hs)) id
    rw [hrel] at this
    cases this

/-! ## What the small steps leave alone -/

/-- Two states that differ at most in their lists, degrees and the standing of copies. -/
structure SameCore (c c' : Coloring) : Prop where
  graph : c'.graph = c.graph
  budget : c'.budget = c.budget
  colorCount : c'.colorCount = c.colorCount
  size : c'.degree.size = c.degree.size
  mergedInto : c'.mergedInto = c.mergedInto
  merged : c'.merged = c.merged
  stacked : c'.stacked = c.stacked
  temps : c'.temps = c.temps
  moveList : c'.moveList = c.moveList
  stack : c'.stack = c.stack
  colors : c'.colors = c.colors

theorem SameCore.refl (c : Coloring) : SameCore c c := by constructor <;> rfl

theorem SameCore.trans {c₁ c₂ c₃ : Coloring} (h : SameCore c₁ c₂) (h' : SameCore c₂ c₃) : SameCore c₁ c₃ where
  graph := h'.graph.trans h.graph
  budget := h'.budget.trans h.budget
  colorCount := h'.colorCount.trans h.colorCount
  size := h'.size.trans h.size
  mergedInto := h'.mergedInto.trans h.mergedInto
  merged := h'.merged.trans h.merged
  stacked := h'.stacked.trans h.stacked
  temps := h'.temps.trans h.temps
  moveList := h'.moveList.trans h.moveList
  stack := h'.stack.trans h.stack
  colors := h'.colors.trans h.colors

/-- The node that stands for a node depends on what was merged only. -/
theorem aliasWithin_congr (hmerged : c'.merged = c.merged) (hinto : c'.mergedInto = c.mergedInto)
    (limit n : Nat) : c'.aliasWithin limit n = c.aliasWithin limit n := by
  induction limit generalizing n with
  | zero => rfl
  | succ limit ih => rw [aliasWithin, aliasWithin, hmerged, hinto, ih]

/-- The node that stands for a node depends on what was merged only. -/
theorem aliasOf_congr (hmerged : c'.merged = c.merged) (hinto : c'.mergedInto = c.mergedInto)
    (n : Nat) : c'.aliasOf n = c.aliasOf n := by
  rw [aliasOf, aliasOf, hinto, aliasWithin_congr hmerged hinto]

/-- Freedom of a node depends on the core only. -/
theorem Free.of_core (h : c.Free n) (hcore : SameCore c c') : c'.Free n :=
  ⟨h.virtual, hcore.size ▸ h.known, hcore.merged ▸ h.unmerged, hcore.stacked ▸ h.untaken⟩

/-- The lists of copies fit in a state with the same core in which no more copies are in play. -/
theorem SameCore.copies (hcore : SameCore c c') (h : c.Worklists busy) (hplay : ∀ m, c'.InPlay m → c.InPlay m) :
    (∀ m, c'.InPlay m → ∀ e, e = (c'.graph.moves.getD m (0, 0)).1 ∨ e = (c'.graph.moves.getD m (0, 0)).2 →
      (c'.moveList.getD (c'.aliasOf e) .empty).contains m = true) ∧
    (∀ n m, c'.merged.contains n = false → (c'.moveList.getD n .empty).contains m = true →
      c'.aliasOf (c'.graph.moves.getD m (0, 0)).1 = n ∨ c'.aliasOf (c'.graph.moves.getD m (0, 0)).2 = n) := by
  have halias := aliasOf_congr hcore.merged hcore.mergedInto
  rw [hcore.graph, hcore.moveList, hcore.merged]
  simp only [halias]
  exact ⟨fun m hm e he => h.listed m (hplay m hm) e he, h.owned⟩

/-- Trying waiting copies again changes no copy's being in play. -/
theorem inPlay_enableMoves (nodes : List Nat) (m : Nat) : (c.enableMoves nodes).InPlay m ↔ c.InPlay m := by
  simp only [enableMoves, InPlay, NatSet.contains_union, NatSet.contains_diff, NatSet.contains_inter,
    Bool.or_eq_true, Bool.and_eq_true, Bool.not_eq_true']
  cases c.activeMoves.contains m <;> cases c.pendingMoves.contains m <;>
    cases (nodes.foldl (fun s n => s.union (c.moveList.getD n .empty)) NatSet.empty).contains m <;> simp

/-- Trying waiting copies again keeps the core. -/
theorem sameCore_enableMoves (nodes : List Nat) : SameCore c (c.enableMoves nodes) := by
  constructor <;> rfl

/-- Trying waiting copies again keeps the lists. -/
theorem Worklists.enableMoves (h : c.Worklists busy) (nodes : List Nat) : (c.enableMoves nodes).Worklists busy := by
  have hcore := sameCore_enableMoves (c := c) nodes
  have hplay := inPlay_enableMoves (c := c) nodes
  have hrel : ∀ n, (c.enableMoves nodes).moveRelated n = c.moveRelated n :=
    fun n => moveRelated_congr rfl hplay
  obtain ⟨hlisted, howned⟩ := hcore.copies h fun m => (hplay m).1
  exact
    { simplify_free := fun n hn => (h.simplify_free n hn).of_core hcore
      freeze_free := fun n hn => (h.freeze_free n hn).of_core hcore
      spill_free := fun n hn => (h.spill_free n hn).of_core hcore
      simplify_freeze := h.simplify_freeze
      simplify_spill := h.simplify_spill
      freeze_spill := h.freeze_spill
      idle := fun n hn hb => (hrel n).trans (h.idle n hn hb)
      related := fun n hn hb => (hrel n).trans (h.related n hn hb)
      low := h.low
      high := h.high
      listed := hlisted
      owned := howned }

/-! ## Lowering degrees -/

theorem sameCore_lowerDegree (c : Coloring) (n : Nat) : SameCore c (c.lowerDegree n) := by
  unfold lowerDegree
  dsimp only
  split
  · exact .refl c
  · split
    · split <;> constructor <;> simp [Coloring.enableMoves]
    · constructor <;> simp

/-- Lowering a degree changes no copy's being in play. -/
theorem inPlay_lowerDegree (c : Coloring) (n m : Nat) : (c.lowerDegree n).InPlay m ↔ c.InPlay m := by
  unfold lowerDegree
  dsimp only
  split
  · exact Iff.rfl
  · split
    · split <;> exact inPlay_enableMoves _ m
    · exact Iff.rfl

/-- The degrees after one of them is lowered. -/
theorem degreeOf_lowerDegree (hn : Node.isPhysical n = false) (hsize : n < c.degree.size) (k : Nat) :
    (c.lowerDegree n).degreeOf k = if k = n then c.degreeOf n - 1 else c.degreeOf k := by
  have hdeg : ∀ d : Coloring, d.degree = c.degree.setIfInBounds n (c.degreeOf n - 1) →
      d.degreeOf k = if k = n then c.degreeOf n - 1 else c.degreeOf k := by
    intro d hd
    rw [degreeOf, hd, Liveness.getD_setIfInBounds]
    by_cases hkn : k = n
    · simp [hkn, hsize]
    · simp [hkn, Ne.symm hkn, degreeOf]
  unfold lowerDegree
  rw [if_neg (by simp [hn])]
  dsimp only
  split
  · split <;> exact hdeg _ rfl
  · exact hdeg _ rfl

/-- Trying waiting copies again leaves nodes related to the copies they were related to. -/
theorem moveRelated_enableMoves (degree : Array Nat) (nodes : List Nat) (spillList : NatSet) (n : Nat) :
    ({ ({ c with degree } : Coloring).enableMoves nodes with spillList } : Coloring).moveRelated n =
      c.moveRelated n :=
  moveRelated_congr rfl fun m => inPlay_enableMoves (c := { c with degree }) nodes m

/-- The lists after a degree is lowered: a node whose degree falls below the number of colours leaves
the spill list for one of the other two. -/
theorem lists_lowerDegree (hn : Node.isPhysical n = false) (k : Nat) : let c' := c.lowerDegree n
    (k ≠ n ∨ c.degreeOf n ≠ c.colorCount →
      c'.simplifyList.contains k = c.simplifyList.contains k ∧
      c'.freezeList.contains k = c.freezeList.contains k ∧
      c'.spillList.contains k = c.spillList.contains k) ∧
    (c.degreeOf n = c.colorCount → c'.spillList.contains n = false ∧
      c'.simplifyList.contains n = (c.simplifyList.contains n || !c.moveRelated n) ∧
      c'.freezeList.contains n = (c.freezeList.contains n || c.moveRelated n)) := by
  dsimp only
  unfold lowerDegree
  rw [if_neg (by simp [hn])]
  dsimp only
  split
  · rename_i hd
    split
    · rename_i hmove
      rw [moveRelated_enableMoves] at hmove
      refine ⟨fun hk => ?_, fun _ => ?_⟩
      · have hkn : k ≠ n := hk.resolve_right (by simp [hd])
        simp [Coloring.enableMoves, Ne.symm hkn]
      · simp [Coloring.enableMoves, hmove]
    · rename_i hmove
      rw [moveRelated_enableMoves, Bool.not_eq_true] at hmove
      refine ⟨fun hk => ?_, fun _ => ?_⟩
      · have hkn : k ≠ n := hk.resolve_right (by simp [hd])
        simp [Coloring.enableMoves, Ne.symm hkn]
      · simp [Coloring.enableMoves, hmove]
  · rename_i hd
    exact ⟨fun _ => ⟨rfl, rfl, rfl⟩, fun h => absurd h hd⟩

/-- Lowering the degree of a node keeps the lists. Before it the node may be busy with a degree that is
one too high for the freeze list. -/
theorem Worklists.lowerDegree {n : Nat} (h : c.Worklists fun k => busy k ∨ k = n)
    (hcolors : 0 < c.colorCount) (hfree : Node.isPhysical n = false → c.Free n)
    (huntaken : c.stacked.contains n = false) (hidle : c.simplifyList.contains n = true → c.moveRelated n = false)
    (hrelated : c.freezeList.contains n = true → c.moveRelated n = true)
    (hdegree : c.freezeList.contains n = true → c.degreeOf n ≤ c.colorCount) : (c.lowerDegree n).Worklists busy := by
  cases hn : Node.isPhysical n with
  | true =>
    have heq : c.lowerDegree n = c := by rw [Coloring.lowerDegree, if_pos hn]
    have hnot : ¬ c.Free n := fun hf => by
      have := hf.virtual
      simp only [Node.isPhysical, decide_eq_true_eq] at hn
      omega
    rw [heq]
    refine h.close ?_ hrelated (fun hf => absurd (h.freeze_free n hf) hnot)
    rintro (hs | hs)
    · exact hidle hs
    · rw [huntaken] at hs
      cases hs
  | false =>
    have hf := hfree hn
    have hcore := sameCore_lowerDegree c n
    have hplay := inPlay_lowerDegree c n
    have hrel : ∀ k, (c.lowerDegree n).moveRelated k = c.moveRelated k :=
      fun k => moveRelated_congr (by rw [hcore.moveList]) hplay
    have hdeg := degreeOf_lowerDegree hn hf.known
    have hlists := lists_lowerDegree (c := c) hn
    obtain ⟨hlisted, howned⟩ := hcore.copies h fun m => (hplay m).1
    have hcount := hcore.colorCount
    by_cases hd : c.degreeOf n = c.colorCount
    · -- The node leaves the spill list; the others stay where they are.
      have hother : ∀ k, k ≠ n → _ := fun k hk => (hlists k).1 (.inl hk)
      obtain ⟨hspill, hsimp, hfrz⟩ := (hlists n).2 hd
      refine ⟨?_, ?_, ?_, ?_, ?_, ?_, ?_, ?_, ?_, ?_, hlisted, howned⟩
      · intro k hk
        by_cases hkn : k = n
        · exact hkn ▸ hf.of_core hcore
        · exact (h.simplify_free k ((hother k hkn).1 ▸ hk)).of_core hcore
      · intro k hk
        by_cases hkn : k = n
        · exact hkn ▸ hf.of_core hcore
        · exact (h.freeze_free k ((hother k hkn).2.1 ▸ hk)).of_core hcore
      · intro k hk
        by_cases hkn : k = n
        · exact hkn ▸ hf.of_core hcore
        · exact (h.spill_free k ((hother k hkn).2.2 ▸ hk)).of_core hcore
      · intro k hk
        by_cases hkn : k = n
        · subst hkn
          rw [hsimp, Bool.or_eq_true, Bool.not_eq_true'] at hk
          rw [hfrz, Bool.or_eq_false_iff]
          rcases hk with hk | hk
          · exact ⟨h.simplify_freeze k hk, hidle hk⟩
          · refine ⟨?_, hk⟩
            by_contra hfk
            rw [hrelated (by simpa using hfk)] at hk
            cases hk
        · rw [(hother k hkn).2.1]
          exact h.simplify_freeze k ((hother k hkn).1 ▸ hk)
      · intro k hk
        by_cases hkn : k = n
        · exact hkn ▸ hspill
        · rw [(hother k hkn).2.2]
          exact h.simplify_spill k ((hother k hkn).1 ▸ hk)
      · intro k hk
        by_cases hkn : k = n
        · exact hkn ▸ hspill
        · rw [(hother k hkn).2.2]
          exact h.freeze_spill k ((hother k hkn).2.1 ▸ hk)
      · intro k hk hb
        rw [hrel]
        by_cases hkn : k = n
        · subst hkn
          rw [hcore.stacked, huntaken, hsimp] at hk
          have hk' : c.simplifyList.contains k = true ∨ c.moveRelated k = false := by simpa using hk
          exact hk'.elim hidle id
        · rw [hcore.stacked, (hother k hkn).1] at hk
          exact h.idle k hk fun hb' => hb'.elim hb hkn
      · intro k hk hb
        rw [hrel]
        by_cases hkn : k = n
        · subst hkn
          rw [hfrz, Bool.or_eq_true] at hk
          exact hk.elim hrelated id
        · exact h.related k ((hother k hkn).2.1 ▸ hk) fun hb' => hb'.elim hb hkn
      · intro k hk hb
        rw [hdeg, hcount]
        by_cases hkn : k = n
        · rw [if_pos hkn]
          omega
        · rw [if_neg hkn]
          exact h.low k ((hother k hkn).2.1 ▸ hk) fun hb' => hb'.elim hb hkn
      · intro k hk
        rw [hdeg, hcount]
        by_cases hkn : k = n
        · rw [hkn, hspill] at hk
          cases hk
        · rw [if_neg hkn]
          exact h.high k ((hother k hkn).2.2 ▸ hk)
    · have hsame : ∀ k, _ := fun k => (hlists k).1 (.inr hd)
      refine ⟨?_, ?_, ?_, ?_, ?_, ?_, ?_, ?_, ?_, ?_, hlisted, howned⟩
      · exact fun k hk => (h.simplify_free k ((hsame k).1 ▸ hk)).of_core hcore
      · exact fun k hk => (h.freeze_free k ((hsame k).2.1 ▸ hk)).of_core hcore
      · exact fun k hk => (h.spill_free k ((hsame k).2.2 ▸ hk)).of_core hcore
      · exact fun k hk => (hsame k).2.1.trans (h.simplify_freeze k ((hsame k).1 ▸ hk))
      · exact fun k hk => (hsame k).2.2.trans (h.simplify_spill k ((hsame k).1 ▸ hk))
      · exact fun k hk => (hsame k).2.2.trans (h.freeze_spill k ((hsame k).2.1 ▸ hk))
      · intro k hk hb
        rw [hcore.stacked, (hsame k).1] at hk
        rw [hrel]
        by_cases hkn : k = n
        · subst hkn
          rw [huntaken] at hk
          exact hidle (by simpa using hk)
        · exact h.idle k hk fun hb' => hb'.elim hb hkn
      · intro k hk hb
        rw [(hsame k).2.1] at hk
        rw [hrel]
        by_cases hkn : k = n
        · exact hkn ▸ hrelated (hkn ▸ hk)
        · exact h.related k hk fun hb' => hb'.elim hb hkn
      · intro k hk hb
        rw [(hsame k).2.1] at hk
        rw [hdeg, hcount]
        by_cases hkn : k = n
        · have := hdegree (hkn ▸ hk)
          rw [if_pos hkn]
          omega
        · rw [if_neg hkn]
          exact h.low k hk fun hb' => hb'.elim hb hkn
      · intro k hk
        rw [(hsame k).2.2] at hk
        have hhigh := h.high k hk
        rw [hdeg, hcount]
        by_cases hkn : k = n
        · subst hkn
          rw [if_pos rfl]
          omega
        · rwa [if_neg hkn]

/-! ## Giving up copies -/

/-- A state in which copies left play, lists and degrees being the same. -/
theorem Worklists.drop (h : c.Worklists busy) (hcore : SameCore c c')
    (hdegree : c'.degree = c.degree) (hsimplify : c'.simplifyList = c.simplifyList)
    (hfreeze : c'.freezeList = c.freezeList) (hspill : c'.spillList = c.spillList)
    (hplay : ∀ m, c'.InPlay m → c.InPlay m)
    (hbusy : ∀ n, c.merged.contains n = false → c.moveRelated n = true → c'.moveRelated n = false →
      busy n) : c'.Worklists busy := by
  have hless : ∀ n, c.moveRelated n = false → c'.moveRelated n = false := by
    intro n hn
    by_contra hn'
    obtain ⟨m, hm, hmplay⟩ := moveRelated_iff.1 (by simpa using hn')
    rw [hcore.moveList] at hm
    rw [moveRelated_iff.2 ⟨m, hm, hplay m hmplay⟩] at hn
    cases hn
  have hdeg : ∀ n, c'.degreeOf n = c.degreeOf n := fun n => by rw [degreeOf, degreeOf, hdegree]
  obtain ⟨hlisted, howned⟩ := hcore.copies h hplay
  refine ⟨?_, ?_, ?_, ?_, ?_, ?_, ?_, ?_, ?_, ?_, hlisted, howned⟩
  · exact fun n hn => (h.simplify_free n (hsimplify ▸ hn)).of_core hcore
  · exact fun n hn => (h.freeze_free n (hfreeze ▸ hn)).of_core hcore
  · exact fun n hn => (h.spill_free n (hspill ▸ hn)).of_core hcore
  · rw [hsimplify, hfreeze]
    exact h.simplify_freeze
  · rw [hsimplify, hspill]
    exact h.simplify_spill
  · rw [hfreeze, hspill]
    exact h.freeze_spill
  · intro n hn hb
    rw [hsimplify, hcore.stacked] at hn
    exact hless n (h.idle n hn hb)
  · intro n hn hb
    rw [hfreeze] at hn
    by_contra hrel
    exact hb (hbusy n (h.freeze_free n hn).unmerged (h.related n hn hb) (by simpa using hrel))
  · intro n hn hb
    rw [hdeg, hcore.colorCount]
    exact h.low n (hfreeze ▸ hn) hb
  · intro n hn
    rw [hdeg, hcore.colorCount]
    exact h.high n (hspill ▸ hn)

/-- A state in which nodes left their lists and free busy nodes joined those that are to be taken, all else being the
same. -/
theorem Worklists.shift {J : Nat → Prop} (h : c.Worklists busy) (hcore : SameCore c c') (hdegree : c'.degree = c.degree)
    (hplay : ∀ m, c'.InPlay m ↔ c.InPlay m) (hjoined : ∀ k, J k →
      c.Free k ∧ busy k ∧ c'.freezeList.contains k = false ∧ c'.spillList.contains k = false)
    (hsimplify : ∀ k, c'.simplifyList.contains k = true → c.simplifyList.contains k = true ∨ J k)
    (hfreeze : ∀ k, c'.freezeList.contains k = true → c.freezeList.contains k = true)
    (hspill : ∀ k, c'.spillList.contains k = true → c.spillList.contains k = true) : c'.Worklists busy := by
  have hsub : ∀ {s s' : NatSet} {k : Nat}, (∀ k, s.contains k = true → s'.contains k = true) →
      s'.contains k = false → s.contains k = false := by
    intro s s' k hs hk
    rw [← Bool.not_eq_true] at hk ⊢
    exact fun hk' => hk (hs k hk')
  have hrel : ∀ k, c'.moveRelated k = c.moveRelated k :=
    fun k => moveRelated_congr (by rw [hcore.moveList]) hplay
  have hdeg : ∀ k, c'.degreeOf k = c.degreeOf k := fun k => by rw [degreeOf, degreeOf, hdegree]
  obtain ⟨hlisted, howned⟩ := hcore.copies h fun m => (hplay m).1
  refine ⟨?_, ?_, ?_, ?_, ?_, ?_, ?_, ?_, ?_, ?_, hlisted, howned⟩
  · exact fun k hk => ((hsimplify k hk).elim (h.simplify_free k) fun hj => (hjoined k hj).1).of_core hcore
  · exact fun k hk => (h.freeze_free k (hfreeze k hk)).of_core hcore
  · exact fun k hk => (h.spill_free k (hspill k hk)).of_core hcore
  · exact fun k hk => (hsimplify k hk).elim (fun hk => hsub hfreeze (h.simplify_freeze k hk)) fun hj => (hjoined k hj).2.2.1
  · exact fun k hk => (hsimplify k hk).elim (fun hk => hsub hspill (h.simplify_spill k hk)) fun hj => (hjoined k hj).2.2.2
  · exact fun k hk => hsub hspill (h.freeze_spill k (hfreeze k hk))
  · intro k hk hb
    rw [hrel]
    rw [hcore.stacked] at hk
    exact h.idle k (hk.imp_left fun hk => (hsimplify k hk).resolve_right fun hj => hb (hjoined k hj).2.1) hb
  · intro k hk hb
    rw [hrel]
    exact h.related k (hfreeze k hk) hb
  · intro k hk hb
    rw [hdeg, hcore.colorCount]
    exact h.low k (hfreeze k hk) hb
  · intro k hk
    rw [hdeg, hcore.colorCount]
    exact h.high k (hspill k hk)

/-- Membership in a list that a node left. -/
theorem contains_erase_iff (s : NatSet) (n k : Nat) : (s.erase n).contains k = true ↔ s.contains k = true ∧ k ≠ n := by
  rw [NatSet.contains_erase, Bool.and_eq_true, bne_iff_ne, ne_comm]

/-- Membership in a list that a node joined. -/
theorem contains_insert_iff (s : NatSet) (n k : Nat) :
    (s.insert n).contains k = true ↔ s.contains k = true ∨ k = n := by
  rw [NatSet.contains_insert, Bool.or_eq_true, beq_iff_eq, eq_comm (a := n)]

/-- Membership in a list that does not hold a node. -/
theorem contains_iff_of_not {s : NatSet} (hn : s.contains n = false) (k : Nat) :
    s.contains k = true ↔ s.contains k = true ∧ k ≠ n := by
  refine ⟨fun hk => ⟨hk, ?_⟩, And.left⟩
  rintro rfl
  exact Bool.noConfusion (hn.symm.trans hk)

/-- A state in which a node went from its list to those that are to be taken, all else being the same. -/
structure Readied (c c' : Coloring) (n : Nat) : Prop where
  core : SameCore c c'
  degree : c'.degree = c.degree
  play : ∀ m, c'.InPlay m ↔ c.InPlay m
  simplify : ∀ k, c'.simplifyList.contains k = true ↔ c.simplifyList.contains k = true ∨ k = n
  freeze : ∀ k, c'.freezeList.contains k = true ↔ c.freezeList.contains k = true ∧ k ≠ n
  spill : ∀ k, c'.spillList.contains k = true ↔ c.spillList.contains k = true ∧ k ≠ n

theorem readied_of_freeze (hspill : c.spillList.contains n = false) :
    Readied c { c with freezeList := c.freezeList.erase n, simplifyList := c.simplifyList.insert n } n :=
  ⟨by constructor <;> rfl, rfl, fun _ => Iff.rfl, contains_insert_iff _ n, contains_erase_iff _ n,
    contains_iff_of_not hspill⟩

theorem readied_of_spill (hfreeze : c.freezeList.contains n = false) :
    Readied c { c with spillList := c.spillList.erase n, simplifyList := c.simplifyList.insert n } n :=
  ⟨by constructor <;> rfl, rfl, fun _ => Iff.rfl, contains_insert_iff _ n, contains_iff_of_not hfreeze,
    contains_erase_iff _ n⟩

/-- A free node can become ready. It is busy until its copies are out of play. -/
theorem Worklists.ready (h : c.Worklists fun k => busy k ∨ k = n) (hfree : c.Free n) (hready : Readied c c' n) :
    c'.Worklists fun k => busy k ∨ k = n := by
  refine h.shift (J := (· = n)) hready.core hready.degree hready.play ?_ (fun k => (hready.simplify k).1)
    (fun k hk => ((hready.freeze k).1 hk).1) fun k hk => ((hready.spill k).1 hk).1
  rintro k rfl
  refine ⟨hfree, .inr rfl, ?_, ?_⟩
  · rw [← Bool.not_eq_true, hready.freeze]
    simp
  · rw [← Bool.not_eq_true, hready.spill]
    simp

/-- A free node without copies goes from the freeze list to those that are to be taken. -/
theorem Worklists.take (h : c.Worklists fun k => busy k ∨ k = n) (hfree : c.Free n)
    (hspill : c.spillList.contains n = false) (hrel : c.moveRelated n = false) :
    ({ c with freezeList := c.freezeList.erase n, simplifyList := c.simplifyList.insert n } :
      Coloring).Worklists busy := by
  refine (h.ready hfree (readied_of_freeze hspill)).close (fun _ => hrel) ?_ ?_
  · intro hn
    simp at hn
  · intro hn
    simp at hn

theorem sameCore_release (c : Coloring) (n : Nat) : SameCore c (c.release n) := by
  unfold release
  split <;> constructor <;> rfl

/-- Releasing a busy node closes it. -/
theorem Worklists.release (h : c.Worklists fun k => busy k ∨ k = n) (hfree : Node.isPhysical n = false → c.Free n)
    (huntaken : c.stacked.contains n = false) (hsimplify : c.simplifyList.contains n = false)
    (hlow : c.freezeList.contains n = true → c.degreeOf n < c.colorCount) : (c.release n).Worklists busy := by
  unfold Coloring.release
  split
  · rename_i hcond
    simp only [Bool.and_eq_true, Bool.not_eq_true', isSignificant, decide_eq_false_iff_not] at hcond
    obtain ⟨⟨hn, hrel⟩, hsig⟩ := hcond
    refine h.take (hfree hn) ?_ hrel
    by_contra hs
    exact hsig (h.high n (by simpa using hs))
  · rename_i hcond
    have hor : Node.isPhysical n = true ∨ c.moveRelated n = true ∨ c.isSignificant n = true := by
      simp only [Bool.and_eq_true, Bool.not_eq_true'] at hcond
      cases hp : Node.isPhysical n <;> cases hm : c.moveRelated n <;> simp_all
    refine h.close ?_ ?_ hlow
    · rintro (hs | hs)
      · rw [hsimplify] at hs
        cases hs
      · rw [huntaken] at hs
        cases hs
    · intro hfz
      rcases hor with hp | hm | hsig
      · have := (h.freeze_free n hfz).virtual
        simp only [Node.isPhysical, decide_eq_true_eq] at hp
        omega
      · exact hm
      · have := hlow hfz
        simp only [isSignificant, decide_eq_true_eq] at hsig
        omega

/-- One copy is given up; the node at its other end may become ready to be taken. -/
def freezeMove (u : Nat) (c : Coloring) (m : Nat) : Coloring :=
  let (x, y) := c.graph.moves.getD m (0, 0)
  let v := if c.aliasOf y = c.aliasOf u then c.aliasOf x else c.aliasOf y
  let c := { c with
    pendingMoves := c.pendingMoves.erase m
    activeMoves := c.activeMoves.erase m }
  if !Node.isPhysical v && !c.moveRelated v && !c.isSignificant v && c.freezeList.contains v then
    { c with freezeList := c.freezeList.erase v, simplifyList := c.simplifyList.insert v }
  else c

/-- Giving up the copies of a node, one by one. -/
theorem freezeMoves_eq (c : Coloring) (u : Nat) : c.freezeMoves u = (c.nodeMoves u).toList.foldl (freezeMove u) c := rfl

theorem sameCore_freezeMove (u : Nat) (c : Coloring) (m : Nat) : SameCore c (freezeMove u c m) := by
  unfold freezeMove
  generalize c.graph.moves.getD m (0, 0) = p
  dsimp only
  generalize (if c.aliasOf p.2 = c.aliasOf u then c.aliasOf p.1 else c.aliasOf p.2) = v
  split <;> constructor <;> rfl

/-- Giving up a copy takes it out of play, and no other. -/
theorem inPlay_freezeMove (u : Nat) (c : Coloring) (m k : Nat) : (freezeMove u c m).InPlay k ↔ c.InPlay k ∧ k ≠ m := by
  have hplay : ∀ d : Coloring, d.pendingMoves = c.pendingMoves.erase m →
      d.activeMoves = c.activeMoves.erase m → (d.InPlay k ↔ c.InPlay k ∧ k ≠ m) := by
    intro d hp ha
    simp only [InPlay, hp, ha, NatSet.contains_erase, Bool.and_eq_true, bne_iff_ne, ne_eq]
    tauto
  unfold freezeMove
  generalize c.graph.moves.getD m (0, 0) = p
  dsimp only
  generalize (if c.aliasOf p.2 = c.aliasOf u then c.aliasOf p.1 else c.aliasOf p.2) = v
  split <;> exact hplay _ rfl rfl

/-- A state in which one copy left play keeps the lists, if the nodes of its ends are busy. -/
theorem Worklists.dropMove (h : c.Worklists busy) (hcore : SameCore c c') (hdegree : c'.degree = c.degree)
    (hsimplify : c'.simplifyList = c.simplifyList) (hfreeze : c'.freezeList = c.freezeList)
    (hspill : c'.spillList = c.spillList) (hplay : ∀ k, c'.InPlay k → c.InPlay k)
    (hplay' : ∀ k, c.InPlay k → k ≠ m → c'.InPlay k)
    (hbusy : ∀ n, c.merged.contains n = false → (c.moveList.getD n .empty).contains m = true →
      busy n) : c'.Worklists busy := by
  refine h.drop hcore hdegree hsimplify hfreeze hspill hplay ?_
  intro n hn hrel hrel'
  obtain ⟨k, hk, hkplay⟩ := moveRelated_iff.1 hrel
  obtain rfl : k = m := by
    by_contra hne
    rw [moveRelated_iff.2 ⟨k, hcore.moveList ▸ hk, hplay' k hkplay hne⟩] at hrel'
    cases hrel'
  exact hbusy n hn hk

/-- Giving up a copy of a busy node keeps the lists: the node at the other end is closed at once. -/
theorem Worklists.freezeMove (h : c.Worklists fun k => busy k ∨ k = u) (hu : c.aliasOf u = u)
    (hm : (c.moveList.getD u .empty).contains m = true) (hunmerged : c.merged.contains u = false) :
    (Coloring.freezeMove u c m).Worklists fun k => busy k ∨ k = u := by
  have howned := fun n hn => h.owned n m hn
  have h1 := h.owned u m hunmerged hm
  unfold Coloring.freezeMove
  generalize c.graph.moves.getD m (0, 0) = p at howned h1
  obtain ⟨x, y⟩ := p
  dsimp only at howned h1 ⊢
  rw [hu]
  set v := if c.aliasOf y = u then c.aliasOf x else c.aliasOf y with hv
  have howner : ∀ n, c.merged.contains n = false →
      (c.moveList.getD n .empty).contains m = true → (busy n ∨ n = u) ∨ n = v := by
    intro n hn hnm
    have h2 := howned n hn hnm
    by_cases hyu : c.aliasOf y = u
    · rw [if_pos hyu] at hv
      rcases h2 with h2 | h2
      · exact .inr (h2.symm.trans hv.symm)
      · exact .inl (.inr (h2.symm.trans hyu))
    · rw [if_neg hyu] at hv
      rcases h2 with h2 | h2
      · exact .inl (.inr (h2.symm.trans (h1.resolve_right hyu)))
      · exact .inr (h2.symm.trans hv.symm)
  set d : Coloring := { c with
    pendingMoves := c.pendingMoves.erase m
    activeMoves := c.activeMoves.erase m } with hd
  have hdrop : d.Worklists fun k => (busy k ∨ k = u) ∨ k = v := by
    refine (h.mono fun k hk => .inl hk).dropMove (by constructor <;> rfl) rfl rfl rfl rfl ?_ ?_ howner
    · intro k hk
      simp only [hd, InPlay, NatSet.contains_erase, Bool.and_eq_true] at hk
      exact hk.imp And.left And.left
    · intro k hk hkm
      simp only [hd, InPlay, NatSet.contains_erase, Bool.and_eq_true, bne_iff_ne, ne_eq]
      exact hk.imp (fun hk => ⟨hk, Ne.symm hkm⟩) (fun hk => ⟨hk, Ne.symm hkm⟩)
  split
  · rename_i hcond
    simp only [Bool.and_eq_true, Bool.not_eq_true'] at hcond
    obtain ⟨⟨⟨-, hrel⟩, -⟩, hfz⟩ := hcond
    exact hdrop.take (hdrop.freeze_free v hfz) (hdrop.freeze_spill v hfz) hrel
  · rename_i hcond
    by_cases hbv : busy v ∨ v = u
    · exact hdrop.mono fun k hk => hk.elim id fun hk => hk ▸ hbv
    · have hlow : d.freezeList.contains v = true → d.degreeOf v < d.colorCount :=
        fun hfz => h.low v hfz hbv
      refine hdrop.close ?_ ?_ hlow
      · intro hs
        have hidle := h.idle v hs hbv
        by_contra hrel
        obtain ⟨k, hk, hkplay⟩ := moveRelated_iff.1 (by simpa using hrel)
        refine Bool.noConfusion (hidle.symm.trans (moveRelated_iff.2 ⟨k, hk, ?_⟩))
        simp only [hd, InPlay, NatSet.contains_erase, Bool.and_eq_true] at hkplay
        exact hkplay.imp And.left And.left
      · intro hfz
        by_contra hrel
        have hvirtual := (hdrop.freeze_free v hfz).virtual
        have hlt := hlow hfz
        have hsig : d.isSignificant v = false := decide_eq_false (Nat.not_le.2 hlt)
        have hphys : Node.isPhysical v = false := decide_eq_false (Nat.not_lt.2 hvirtual)
        apply hcond
        change (!Node.isPhysical v && !d.moveRelated v && !d.isSignificant v &&
          d.freezeList.contains v) = true
        rw [hphys, hsig, hfz, (Bool.not_eq_true _).mp hrel]
        rfl

/-- Giving up some copies of a busy node keeps core and lists, and takes these copies out of play. -/
theorem Worklists.foldl_freezeMove (moves : List Nat) (h : c.Worklists fun k => busy k ∨ k = u) (hu : c.aliasOf u = u)
    (hmoves : ∀ m ∈ moves, (c.moveList.getD u .empty).contains m = true) (hunmerged : c.merged.contains u = false) :
    SameCore c (moves.foldl (Coloring.freezeMove u) c) ∧
      ((moves.foldl (Coloring.freezeMove u) c).Worklists fun k => busy k ∨ k = u) ∧
      ∀ k, (moves.foldl (Coloring.freezeMove u) c).InPlay k ↔ c.InPlay k ∧ k ∉ moves := by
  induction moves generalizing c with
  | nil => exact ⟨.refl c, h, by simp⟩
  | cons m moves ih =>
    have hcore := sameCore_freezeMove u c m
    have hlists := h.freezeMove hu (hmoves m List.mem_cons_self) hunmerged
    obtain ⟨hcore', hlists', hplay'⟩ := ih hlists
      ((aliasOf_congr hcore.merged hcore.mergedInto u).trans hu)
      (fun k hk => hcore.moveList ▸ hmoves k (List.mem_cons_of_mem _ hk)) (hcore.merged ▸ hunmerged)
    refine ⟨hcore.trans hcore', hlists', fun k => ?_⟩
    rw [List.foldl_cons, hplay', inPlay_freezeMove, List.mem_cons]
    tauto

/-- Giving up the copies of a busy node that is to be taken keeps the core and closes the node. -/
theorem Worklists.freezeMoves (h : c.Worklists fun k => busy k ∨ k = u) (hu : c.aliasOf u = u)
    (hunmerged : c.merged.contains u = false) (hsimplify : c.simplifyList.contains u = true) :
    SameCore c (c.freezeMoves u) ∧ (c.freezeMoves u).Worklists busy ∧
      (c.freezeMoves u).simplifyList.contains u = true := by
  have hmoves : ∀ m ∈ (c.nodeMoves u).toList, (c.moveList.getD u .empty).contains m = true := by
    intro m hm
    rw [NatSet.mem_toList, nodeMoves, NatSet.contains_inter, Bool.and_eq_true] at hm
    exact hm.1
  obtain ⟨hcore, hlists, hplay⟩ := h.foldl_freezeMove _ hu hmoves hunmerged
  rw [freezeMoves_eq]
  have hrel : (((c.nodeMoves u).toList.foldl (Coloring.freezeMove u) c).moveRelated u) = false := by
    by_contra hrel
    obtain ⟨m, hm, hmplay⟩ := moveRelated_iff.1 (by simpa using hrel)
    rw [hplay, NatSet.mem_toList, nodeMoves, NatSet.contains_inter, NatSet.contains_union] at hmplay
    rw [hcore.moveList] at hm
    rw [hm] at hmplay
    rcases hmplay with ⟨hp | hp, hnot⟩ <;> simp [hp] at hnot
  have hstill : ∀ (moves : List Nat) (d : Coloring), d.simplifyList.contains u = true →
      (moves.foldl (Coloring.freezeMove u) d).simplifyList.contains u = true := by
    intro moves
    induction moves with
    | nil => exact fun d hd => hd
    | cons m moves ih =>
      intro d hd
      apply ih
      unfold Coloring.freezeMove
      generalize d.graph.moves.getD m (0, 0) = p
      dsimp only
      generalize (if d.aliasOf p.2 = d.aliasOf u then d.aliasOf p.1 else d.aliasOf p.2) = v
      split
      · simp only [NatSet.contains_insert, hd, Bool.true_or]
      · exact hd
  have hsimplify' := hstill (c.nodeMoves u).toList c hsimplify
  refine ⟨hcore, hlists.close (fun _ => hrel) ?_ ?_, hsimplify'⟩
  · intro hfz
    exact Bool.noConfusion ((hlists.simplify_freeze u hsimplify').symm.trans hfz)
  · intro hfz
    exact Bool.noConfusion ((hlists.simplify_freeze u hsimplify').symm.trans hfz)

end Coloring

end SsaCompiler
