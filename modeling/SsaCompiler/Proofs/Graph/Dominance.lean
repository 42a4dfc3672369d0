import SsaCompiler.Graph.DominatorTree
import SsaCompiler.Proofs.Graph.Reachability
import SsaCompiler.Proofs.NatSet

/-!
# Dominators

The sets of dominators that the rounds settle on are exact (`settle_exact`): a position is in the set of another one
iff every path from the entry to the other comes through it. That no dominator is missing holds of every round, since
the sets start with everything and a round drops only what some predecessor lacks. That nothing else is left is read
off the last round, which changed nothing.
-/

set_option autoImplicit false

namespace SsaCompiler

namespace Cfg

variable {g : Cfg}

/-- A path from the entry leads to the block without coming through another one. -/
inductive Avoids (g : Cfg) (a : Nat) : Nat → Prop
  | entry : g.entry ≠ a → Avoids g a g.entry
  | step {b c : Nat} : Avoids g a b → g.Edge b c → c ≠ a → Avoids g a c

/-- Every path from the entry to the second block comes through the first one. -/
def Dominates (g : Cfg) (a b : Nat) : Prop := ¬ g.Avoids a b

/-- Among reachable blocks, the predecessor lists name the sources of the edges. -/
def Consistent (g : Cfg) : Prop :=
  ∀ p b, g.Reachable p → g.Reachable b → (p ∈ g.preds b ↔ g.Edge p b)

namespace Dominates

variable {a b c : Nat}

theorem refl (g : Cfg) (a : Nat) : g.Dominates a a := by
  intro h
  cases h with
  | entry hne => exact hne rfl
  | step _ _ hne => exact hne rfl

/-- The entry dominates every block. -/
theorem of_entry (g : Cfg) (b : Nat) : g.Dominates g.entry b := by
  intro h
  induction h with
  | entry hne => exact hne rfl
  | step _ _ _ ih => exact ih

/-- What dominates a block strictly dominates its predecessors. -/
theorem of_edge (h : g.Dominates a c) (hne : a ≠ c) (hedge : g.Edge b c) : g.Dominates a b :=
  fun hb => h (.step hb hedge (Ne.symm hne))

theorem trans (h : g.Dominates a b) (h' : g.Dominates b c) : g.Dominates a c := by
  -- A path that avoids `a` avoids `b`, since the part of it that leads to `b` would avoid `a`.
  intro hc
  refine h' ?_
  clear h'
  induction hc with
  | entry hne =>
    refine .entry ?_
    rintro rfl
    exact h (.entry hne)
  | @step p d hp hedge hne ih =>
    refine .step ih hedge ?_
    rintro rfl
    exact h (.step hp hedge hne)

/-- Only the entry dominates the entry. -/
theorem eq_entry (h : g.Dominates a g.entry) : a = g.entry := by
  by_contra hne
  exact h (.entry (Ne.symm hne))

/-- Two blocks that dominate a reachable block dominate one another in some order. -/
theorem total (h : g.Dominates a b) (h' : g.Dominates c b) (hb : g.Reachable b) :
    g.Dominates a c ∨ g.Dominates c a := by
  by_contra hneither
  rw [not_or] at hneither
  have hac : g.Avoids a c := not_not.1 hneither.1
  have hca : g.Avoids c a := not_not.1 hneither.2
  -- A path avoids one of the two behind the last place where it comes through either.
  have hpath : g.Avoids a b ∨ g.Avoids c b := by
    clear h h'
    induction hb with
    | refl =>
      by_cases hea : g.entry = a
      · exact .inr (hea ▸ hca)
      · exact .inl (.entry hea)
    | @tail p d _ hedge ih =>
      by_cases hda : d = a
      · exact .inr (hda ▸ hca)
      · by_cases hdc : d = c
        · exact .inl (hdc ▸ hac)
        · exact ih.imp (fun hp => .step hp hedge hda) fun hp => .step hp hedge hdc
  exact hpath.elim h h'

/-- Two different blocks do not dominate each other. -/
theorem antisymm (h : g.Dominates a b) (h' : g.Dominates b a) (ha : g.Reachable a) : a = b := by
  by_contra hab
  have hpath : ∀ d, g.Reachable d → g.Avoids a d ∧ g.Avoids b d := by
    intro d hd
    induction hd with
    | refl =>
      refine ⟨.entry ?_, .entry ?_⟩
      · rintro rfl
        exact hab h'.eq_entry.symm
      · rintro rfl
        exact hab h.eq_entry
    | @tail p d _ hedge ih =>
      have hda : d ≠ a := by
        rintro rfl
        exact h' (.step ih.2 hedge hab)
      have hdb : d ≠ b := by
        rintro rfl
        exact h (.step ih.1 hedge (Ne.symm hab))
      exact ⟨.step ih.1 hedge hda, .step ih.2 hedge hdb⟩
  exact refl g a (hpath a ha).1

end Dominates

/-- The end of a path is reachable. -/
theorem Avoids.reachable {a b : Nat} (h : g.Avoids a b) : g.Reachable b := by
  induction h with
  | entry _ => exact .refl
  | step _ hedge _ ih => exact ih.tail hedge

end Cfg

variable {i : Nat}

namespace BlockSet

/-- All positions have a place. -/
theorem len_le_capacity (s : BlockSet) : s.len ≤ s.capacity := by
  unfold capacity
  omega

/-- Adding a position. -/
theorem contains_insert {s : BlockSet} (hi : i < s.len) (j : Nat) :
    (s.insert i).len = s.len ∧ ((s.insert i).contains j = true ↔ s.contains j = true ∨ j = i) := by
  unfold insert
  rw [if_pos (Nat.lt_of_lt_of_le hi s.len_le_capacity)]
  refine ⟨rfl, ?_⟩
  unfold contains
  simp only [NatSet.contains_insert, Bool.and_eq_true, decide_eq_true_eq, Bool.or_eq_true, beq_iff_eq]
  constructor
  · rintro ⟨hlt, hs | rfl⟩
    · exact .inl ⟨hlt, hs⟩
    · exact .inr rfl
  · rintro (⟨hlt, hs⟩ | rfl)
    · exact ⟨hlt, .inl hs⟩
    · exact ⟨hi, .inr rfl⟩

/-- The positions of two sets of the same length. -/
theorem contains_inter {s t : BlockSet} (h : t.len = s.len) (j : Nat) :
    (s.inter t).len = s.len ∧ ((s.inter t).contains j = true ↔ s.contains j = true ∧ t.contains j = true) := by
  refine ⟨rfl, ?_⟩
  have hcap := t.len_le_capacity
  have hbelow : j < s.len → (NatSet.below t.capacity).contains j = true := fun hj =>
    (NatSet.contains_below ..).2 (by omega)
  unfold contains inter
  simp only [NatSet.contains_union, NatSet.contains_inter, NatSet.contains_diff, Bool.and_eq_true, Bool.or_eq_true,
    decide_eq_true_eq, h]
  constructor
  · rintro ⟨hj, ⟨hs, ht⟩ | ⟨hs, hnot⟩⟩
    · exact ⟨⟨hj, hs⟩, hj, ht⟩
    · rw [hbelow hj] at hnot
      cases hnot
  · rintro ⟨⟨hj, hs⟩, -, ht⟩
    exact ⟨hj, .inl ⟨hs, ht⟩⟩

theorem contains_full {n j : Nat} : (full n).contains j = true ↔ j < n := by
  unfold contains full
  simp [NatSet.contains_below]

/-- The set ranges over the positions below `n` and stores no other. -/
structure Within (n : Nat) (s : BlockSet) : Prop where
  len : s.len = n
  stored : ∀ i, s.stored.contains i = true → i < n

namespace Within

variable {n : Nat} {s t : BlockSet}

/-- Sets that store nothing past their length are equal when they contain the same positions. -/
theorem ext (hs : s.Within n) (ht : t.Within n) (h : ∀ i, s.contains i = true ↔ t.contains i = true) : s = t := by
  have hstored : ∀ {u : BlockSet}, u.Within n → ∀ i, u.contains i = true ↔ u.stored.contains i = true := by
    intro u hu i
    unfold contains
    rw [Bool.and_eq_true, decide_eq_true_eq, hu.len]
    exact ⟨And.right, fun hi => ⟨hu.stored i hi, hi⟩⟩
  have hmask : s.stored.mask = t.stored.mask := Nat.eq_of_testBit_eq fun i =>
    Bool.eq_iff_iff.2 ((hstored hs i).symm.trans ((h i).trans (hstored ht i)))
  obtain ⟨len, ⟨mask⟩⟩ := s
  obtain ⟨len', ⟨mask'⟩⟩ := t
  obtain rfl : mask = mask' := hmask
  obtain rfl : len = len' := hs.len.trans ht.len.symm
  rfl

theorem empty (n : Nat) : (BlockSet.empty n).Within n := ⟨rfl, fun i hi => by simp [BlockSet.empty] at hi⟩

theorem full (n : Nat) : (BlockSet.full n).Within n := ⟨rfl, fun _ hi => (NatSet.contains_below ..).1 hi⟩

theorem insert (h : s.Within n) (hi : i < n) : (s.insert i).Within n := by
  unfold BlockSet.insert
  split
  · refine ⟨h.len, fun j hj => ?_⟩
    rw [NatSet.contains_insert, Bool.or_eq_true, beq_iff_eq] at hj
    rcases hj with hj | rfl
    · exact h.stored j hj
    · exact hi
  · exact h

theorem inter (h : s.Within n) (t : BlockSet) : (s.inter t).Within n := by
  refine ⟨h.len, fun j hj => h.stored j ?_⟩
  unfold BlockSet.inter at hj
  rw [NatSet.contains_union, NatSet.contains_inter, NatSet.contains_diff, Bool.or_eq_true, Bool.and_eq_true,
    Bool.and_eq_true] at hj
  exact hj.elim And.left And.left

end Within

/-- The listed positions are the contained ones. -/
theorem mem_toList {s : BlockSet} {j : Nat} : j ∈ s.toList ↔ s.contains j = true := by
  unfold toList
  rw [List.mem_filter, List.mem_range]
  refine ⟨fun h => h.2, fun h => ⟨?_, h⟩⟩
  unfold contains at h
  rw [Bool.and_eq_true, decide_eq_true_eq] at h
  exact h.1

end BlockSet

namespace DominatorTree

/-- All sets range over the same positions. -/
structure Sized (n : Nat) (sets : Array BlockSet) : Prop where
  size : sets.size = n
  within : ∀ b, (sets.getD b (.empty n)).Within n

variable {n : Nat}

theorem Sized.len {sets : Array BlockSet} (h : Sized n sets) (b : Nat) :
    (sets.getD b (.empty n)).len = n := (h.within b).len

/-- What is in the set of a position that is recomputed. -/
theorem contains_meet {sets : Array BlockSet} (hsized : Sized n sets) (hi : i < n) (preds : List Nat) :
    (meet n sets preds i).Within n ∧ ∀ a, ((meet n sets preds i).contains a = true ↔
      a < n ∧ (a = i ∨ ∀ p ∈ preds, (sets.getD p (.empty n)).contains a = true)) := by
  have hfold : ∀ common : BlockSet, common.Within n →
      (preds.foldl (fun common p => BlockSet.inter common (sets.getD p (.empty n))) common).Within n ∧
      ∀ a, ((preds.foldl (fun common p => BlockSet.inter common (sets.getD p (.empty n))) common).contains a = true ↔
        common.contains a = true ∧ ∀ p ∈ preds, (sets.getD p (.empty n)).contains a = true) := by
    induction preds with
    | nil => exact fun common hcommon => ⟨hcommon, by simp⟩
    | cons p preds ih =>
      intro common hcommon
      obtain ⟨hwithin, hin⟩ := ih _ (hcommon.inter (sets.getD p (.empty n)))
      refine ⟨hwithin, fun a => (hin a).trans ?_⟩
      rw [(BlockSet.contains_inter ((hsized.len p).trans hcommon.len.symm) a).2, List.forall_mem_cons, and_assoc]
  obtain ⟨hwithin, hin⟩ := hfold (.full n) (.full n)
  refine ⟨hwithin.insert hi, fun a => ((BlockSet.contains_insert (by rw [hwithin.len]; exact hi) a).2).trans ?_⟩
  rw [hin, BlockSet.contains_full]
  constructor
  · rintro (⟨ha, hall⟩ | rfl)
    · exact ⟨ha, .inr hall⟩
    · exact ⟨hi, .inl rfl⟩
  · rintro ⟨ha, rfl | hall⟩
    · exact .inr rfl
    · exact .inl ⟨ha, hall⟩

variable {preds : Array (List Nat)}

/-- A round that changes nothing leaves the sets alone, and all its positions are settled. -/
theorem foldl_refineAt (l : List Nat) (state : Array BlockSet × Bool)
    (h : (l.foldl (refineAt n preds) state).2 = false) : state.2 = false ∧ l.foldl (refineAt n preds) state = state ∧
      ∀ i ∈ l, meet n state.1 (preds.getD i []) i = state.1.getD i (.empty n) := by
  induction l generalizing state with
  | nil => exact ⟨h, rfl, fun i hi => absurd hi List.not_mem_nil⟩
  | cons i l ih =>
    rw [List.foldl_cons] at h ⊢
    obtain ⟨hfalse, hfold, hsettled⟩ := ih _ h
    have hsame : meet n state.1 (preds.getD i []) i = state.1.getD i (.empty n) := by
      by_contra hne
      unfold refineAt at hfalse
      dsimp only at hfalse
      rw [if_neg hne] at hfalse
      cases hfalse
    have hstep : refineAt n preds state i = state := by
      unfold refineAt
      dsimp only
      rw [if_pos hsame]
    rw [hstep] at hfalse hfold hsettled ⊢
    refine ⟨hfalse, hfold, fun j hj => ?_⟩
    rcases List.mem_cons.1 hj with rfl | hj
    · exact hsame
    · exact hsettled j hj

/-- What recomputing one position keeps, the rounds keep, and at the end nothing changes any more. -/
theorem settle_keeps {P : Array BlockSet → Prop}
    (hstep : ∀ sets i, P sets → 0 < i → i < n → P (sets.setIfInBounds i (meet n sets (preds.getD i []) i))) :
    ∀ {limit done : Nat} {sets domBy : Array BlockSet} {rounds : Nat}, P sets →
      settle n preds limit done sets = some (domBy, rounds) →
      P domBy ∧ ∀ i, 0 < i → i < n → meet n domBy (preds.getD i []) i = domBy.getD i (.empty n) := by
  have hround : ∀ (l : List Nat) (state : Array BlockSet × Bool), (∀ i ∈ l, 0 < i ∧ i < n) → P state.1 →
      P (l.foldl (refineAt n preds) state).1 := by
    intro l
    induction l with
    | nil => exact fun _ _ h => h
    | cons i l ih =>
      intro state hl hP
      refine ih _ (fun j hj => hl j (List.mem_cons_of_mem _ hj)) ?_
      obtain ⟨hpos, hlt⟩ := hl i List.mem_cons_self
      unfold refineAt
      dsimp only
      split
      · exact hP
      · exact hstep state.1 i hP hpos hlt
  have hrange : ∀ i, i ∈ List.range' 1 (n - 1) ↔ 0 < i ∧ i < n := by
    intro i
    rw [List.mem_range'_1]
    omega
  intro limit
  induction limit with
  | zero =>
    intro done sets domBy rounds _ h
    cases h
  | succ limit ih =>
    intro done sets domBy rounds hP h
    have hnext : P (refine n preds sets).1 := hround _ (sets, false) (fun i hi => (hrange i).1 hi) hP
    rw [settle] at h
    dsimp only at h
    split at h
    · exact ih hnext h
    · rename_i hchanged
      cases h
      obtain ⟨-, hfold, hsettled⟩ := foldl_refineAt _ (sets, false) (Bool.not_eq_true _ ▸ hchanged)
      refine ⟨hnext, fun i hpos hlt => ?_⟩
      have hsame : (refine n preds sets).1 = sets := congrArg Prod.fst hfold
      rw [hsame]
      exact hsettled i ((hrange i).2 ⟨hpos, hlt⟩)

section Exact

variable {g : Cfg} {r : ReversePostorder}

/-- By position, the positions of the predecessors. -/
abbrev predPositions (g : Cfg) (r : ReversePostorder) : Array (List Nat) :=
  (r.order.map fun b => (g.preds b).filterMap r.position?).toArray

variable {q : Nat}

/-- The predecessors of a position. -/
theorem mem_preds_iff (hr : ReversePostorder.ofCfg g = .ok r) (hg : g.Consistent) {c : Nat}
    (hi : r.order[i]? = some c) : q ∈ (predPositions g r).getD i [] ↔ ∃ b, r.order[q]? = some b ∧ g.Edge b c := by
  obtain ⟨-, -, hmem, -, hpos⟩ := ReversePostorder.ofCfg_spec hr
  have hat : (predPositions g r).getD i [] = (g.preds c).filterMap r.position? := by
    rw [Array.getD_eq_getD_getElem?, List.getElem?_toArray, List.getElem?_map, hi]
    rfl
  have hc : g.Reachable c := (hmem c).1 (List.mem_of_getElem? hi)
  rw [hat, List.mem_filterMap]
  constructor
  · rintro ⟨b, hb, hq⟩
    have hbq := (hpos b q).1 hq
    exact ⟨b, hbq, (hg b c ((hmem b).1 (List.mem_of_getElem? hbq)) hc).1 hb⟩
  · rintro ⟨b, hbq, hedge⟩
    exact ⟨b, (hg b c ((hmem b).1 (List.mem_of_getElem? hbq)) hc).2 hedge, (hpos b q).2 hbq⟩

/-- What every round keeps: the entry has only itself, and no dominator is missing. -/
structure Bounding (g : Cfg) (r : ReversePostorder) (sets : Array BlockSet) : Prop where
  sized : Sized r.order.length sets
  entry : ∀ a, (sets.getD 0 (.empty r.order.length)).contains a = true ↔ a = 0
  dominators : ∀ p q a b, r.order[p]? = some a → r.order[q]? = some b → g.Dominates a b →
    (sets.getD q (.empty r.order.length)).contains p = true

/-- A position is in the set of another one iff its block dominates the block of the other. -/
def IsExact (g : Cfg) (r : ReversePostorder) (sets : Array BlockSet) : Prop :=
  ∀ p q a b, r.order[p]? = some a → r.order[q]? = some b →
    ((sets.getD q (.empty r.order.length)).contains p = true ↔ g.Dominates a b)

/-- The entry comes first. -/
theorem order_zero (hr : ReversePostorder.ofCfg g = .ok r) : r.order[0]? = some g.entry := by
  obtain ⟨-, hhead, -⟩ := ReversePostorder.ofCfg_spec hr
  rw [← List.head?_eq_getElem?, hhead]

/-- A block has one position. -/
theorem position_inj (hr : ReversePostorder.ofCfg g = .ok r) {p a : Nat} (hp : r.order[p]? = some a)
    (hq : r.order[q]? = some a) : p = q := by
  obtain ⟨-, -, -, -, hpos⟩ := ReversePostorder.ofCfg_spec hr
  exact Option.some.inj (((hpos a p).2 hp).symm.trans ((hpos a q).2 hq))

/-- The set of a position before the first round. -/
theorem getD_startSets (hq : q < n) :
    (startSets n).getD q (.empty n) = if q = 0 then (BlockSet.empty n).insert 0 else .full n := by
  unfold startSets
  rw [Array.getD_eq_getD_getElem?, Array.getElem?_ofFn, dif_pos hq]
  rfl

/-- All sets range over the positions before the first round. -/
theorem sized_startSets (hn : 0 < n) : Sized n (startSets n) := by
  refine ⟨Array.size_ofFn, fun b => ?_⟩
  by_cases hb : b < n
  · rw [getD_startSets hb]
    split
    · exact (BlockSet.Within.empty n).insert hn
    · exact .full n
  · unfold startSets
    rw [Array.getD_eq_getD_getElem?, Array.getElem?_ofFn, dif_neg hb]
    exact .empty n

/-- No dominator is missing before the first round. -/
theorem bounding_startSets (hr : ReversePostorder.ofCfg g = .ok r) : Bounding g r (startSets r.order.length) := by
  have hfirst := order_zero hr
  have hlen : 0 < r.order.length := (List.getElem?_eq_some_iff.1 hfirst).1
  have hzero := fun a => (BlockSet.contains_insert (s := .empty r.order.length) (i := 0) hlen a).2
  refine ⟨sized_startSets hlen, fun a => ?_, fun p q a b hp hq hdom => ?_⟩
  · rw [getD_startSets hlen, if_pos rfl, hzero a]
    simp [BlockSet.contains, BlockSet.empty]
  · rw [getD_startSets (List.getElem?_eq_some_iff.1 hq).1]
    split
    · rename_i hq0
      subst hq0
      obtain rfl : g.entry = b := Option.some.inj (hfirst.symm.trans hq)
      obtain rfl := hdom.eq_entry
      exact (hzero p).2 (.inr (position_inj hr hp hfirst))
    · exact BlockSet.contains_full.2 (List.getElem?_eq_some_iff.1 hp).1

namespace Bounding

variable {sets : Array BlockSet}

/-- Reading the sets after one position was recomputed. -/
theorem getD_set (h : Bounding g r sets) (hi : i < r.order.length) (x : BlockSet) (q : Nat) :
    (sets.setIfInBounds i x).getD q (.empty r.order.length) =
      if q = i then x else sets.getD q (.empty r.order.length) := by
  rw [Array.getD_eq_getD_getElem?, Array.getElem?_setIfInBounds, Array.getD_eq_getD_getElem?]
  by_cases hqi : q = i
  · rw [if_pos hqi.symm, if_pos hqi, if_pos (by rw [h.sized.size]; exact hi)]
    rfl
  · rw [if_neg (Ne.symm hqi), if_neg hqi]

/-- Recomputing a position drops no dominator. -/
theorem recompute (h : Bounding g r sets) (hr : ReversePostorder.ofCfg g = .ok r) (hg : g.Consistent) (hpos : 0 < i)
    (hi : i < r.order.length) :
    Bounding g r (sets.setIfInBounds i (meet r.order.length sets ((predPositions g r).getD i []) i)) := by
  obtain ⟨hwithin, hmeet⟩ := contains_meet h.sized hi ((predPositions g r).getD i [])
  refine ⟨⟨by rw [Array.size_setIfInBounds]; exact h.sized.size, fun b => ?_⟩, fun a => ?_,
    fun p q a b hp hq hdom => ?_⟩
  · rw [h.getD_set hi]
    split
    · exact hwithin
    · exact h.sized.within b
  · rw [h.getD_set hi, if_neg (Nat.ne_of_lt hpos)]
    exact h.entry a
  · rw [h.getD_set hi]
    split
    · rename_i hqi
      subst hqi
      refine (hmeet p).2 ⟨(List.getElem?_eq_some_iff.1 hp).1, ?_⟩
      by_cases hpq : p = q
      · exact .inl hpq
      · refine .inr fun j hj => ?_
        obtain ⟨d, hd, hedge⟩ := (mem_preds_iff hr hg hq).1 hj
        refine h.dominators p j a d hp hd (hdom.of_edge ?_ hedge)
        rintro rfl
        exact hpq (position_inj hr hp hq)
    · exact h.dominators p q a b hp hq hdom

/-- Sets that no position changes are exact. -/
theorem exact_of_settled (h : Bounding g r sets) (hr : ReversePostorder.ofCfg g = .ok r) (hg : g.Consistent)
    (hsettled : ∀ i, 0 < i → i < r.order.length →
      meet r.order.length sets ((predPositions g r).getD i []) i = sets.getD i (.empty r.order.length)) :
    IsExact g r sets := by
  obtain ⟨-, -, hmem, -, -⟩ := ReversePostorder.ofCfg_spec hr
  have hfirst := order_zero hr
  refine fun p q a b hp hq => ⟨fun hin havoid => ?_, h.dominators p q a b hp hq⟩
  -- On a path that avoids the first block, none of the sets has its position.
  have hpath : ∀ c, g.Avoids a c → ∀ i, r.order[i]? = some c →
      (sets.getD i (.empty r.order.length)).contains p = false := by
    intro c hc
    induction hc with
    | entry hne =>
      intro i hi
      obtain rfl := position_inj hr hi hfirst
      rw [← Bool.not_eq_true, h.entry]
      rintro rfl
      exact hne (Option.some.inj (hfirst.symm.trans hp))
    | @step d c hd hedge hne ih =>
      intro i hi
      obtain ⟨j, hj⟩ := List.getElem?_of_mem ((hmem d).2 hd.reachable)
      have hlt := (List.getElem?_eq_some_iff.1 hi).1
      by_cases hi0 : i = 0
      · subst hi0
        rw [← Bool.not_eq_true, h.entry]
        rintro rfl
        exact hne (Option.some.inj (hi.symm.trans hp))
      · rw [← hsettled i (Nat.pos_of_ne_zero hi0) hlt, ← Bool.not_eq_true, (contains_meet h.sized hlt _).2]
        rintro ⟨-, rfl | hpreds⟩
        · exact hne (Option.some.inj (hi.symm.trans hp))
        · have hlack := ih j hj
          rw [hpreds j ((mem_preds_iff hr hg hi).2 ⟨d, hj, hedge⟩)] at hlack
          cases hlack
  have hlack := hpath b havoid q hq
  rw [hin] at hlack
  cases hlack

end Bounding

/-- The sets at the end are exact. -/
theorem settle_exact (hr : ReversePostorder.ofCfg g = .ok r) (hg : g.Consistent) {limit rounds : Nat}
    {domBy : Array BlockSet}
    (h : settle r.order.length (predPositions g r) limit 0 (startSets r.order.length) = some (domBy, rounds)) :
    Sized r.order.length domBy ∧ IsExact g r domBy := by
  obtain ⟨hbound, hsettled⟩ := settle_keeps (P := Bounding g r)
    (fun sets i hsets hpos hi => hsets.recompute hr hg hpos hi) (bounding_startSets hr) h
  exact ⟨hbound.sized, hbound.exact_of_settled hr hg hsettled⟩

end Exact

end DominatorTree

end SsaCompiler
