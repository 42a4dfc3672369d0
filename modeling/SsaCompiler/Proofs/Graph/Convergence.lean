import SsaCompiler.Proofs.Graph.Dominance
import Mathlib.Data.List.MinMax
import Mathlib.Data.List.Nodup
import Mathlib.Data.List.Perm.Subperm
import Mathlib.Data.Nat.Find

/-!
# The rounds settle

Every graph whose reachable blocks can be asked for their successors has a dominator tree (`ofCfg_total`). A block that
some path from the entry avoids is avoided by a path without repetition, whose length is below the number of reachable
blocks. A round carries the absence of a block over every edge, so after that many rounds the sets are exact and the
next round changes nothing, which is well within the limit.
-/

set_option autoImplicit false

namespace SsaCompiler

variable {preds : Array (List Nat)} {n : Nat}

namespace Cfg

variable {g : Cfg} {a b : Nat}

/-- Every block that the entry reaches has a number below the capacity and known successors. -/
def Explorable (g : Cfg) : Prop := ∀ b, g.Reachable b → b < g.capacity ∧ ∃ succs, g.succs b = .ok succs

variable {succs : Array (List Nat)} {name : String}

/-- Adjacency lists that name only blocks of the graph can be explored. -/
theorem explorable_ofAdjacency (hentry : 0 < succs.size) (h : ∀ b, ∀ c ∈ succs.getD b [], c < succs.size) :
    (ofAdjacency name succs preds).Explorable := by
  have hsuccs : ∀ b, b < succs.size → (ofAdjacency name succs preds).succs b = .ok (succs.getD b []) := by
    intro b hb
    change Outcome.ofOption succs[b]? = _
    rw [Array.getD_eq_getD_getElem?, Array.getElem?_eq_getElem hb]
    rfl
  have hlt : ∀ b, (ofAdjacency name succs preds).Reachable b → b < succs.size := by
    intro b hb
    induction hb with
    | refl => exact hentry
    | @tail b c _ hedge ih =>
      obtain ⟨targets, htargets, hc⟩ := hedge
      rw [hsuccs b ih] at htargets
      cases htargets
      exact h b c hc
  exact fun b hb => ⟨hlt b hb, _, hsuccs b (hlt b hb)⟩

/-- Adjacency lists that mirror each other are consistent. -/
theorem consistent_ofAdjacency
    (h : ∀ b, b < preds.size → ∀ p, p < succs.size → (p ∈ preds.getD b [] ↔ b ∈ succs.getD p []))
    (hpreds : ∀ b, ∀ p ∈ preds.getD b [], p < succs.size) (hsuccs : ∀ p, ∀ b ∈ succs.getD p [], b < preds.size) :
    (ofAdjacency name succs preds).Consistent := by
  intro p b _ _
  change p ∈ preds.getD b [] ↔ ∃ targets, Outcome.ofOption succs[p]? = .ok targets ∧ b ∈ targets
  constructor
  · intro hp
    have hlt := hpreds b p hp
    have hb : b < preds.size := by
      by_contra hge
      rw [Array.getD_eq_getD_getElem?, Array.getElem?_eq_none (Nat.le_of_not_lt hge)] at hp
      exact List.not_mem_nil hp
    refine ⟨succs.getD p [], ?_, (h b hb p hlt).1 hp⟩
    rw [Array.getD_eq_getD_getElem?, Array.getElem?_eq_getElem hlt]
    rfl
  · rintro ⟨targets, htargets, hb⟩
    have hlt : p < succs.size := by
      by_contra hge
      rw [Array.getElem?_eq_none (Nat.le_of_not_lt hge)] at htargets
      cases htargets
    have hget : succs.getD p [] = targets := by
      rw [Array.getElem?_eq_getElem hlt] at htargets
      rw [Array.getD_eq_getD_getElem?, Array.getElem?_eq_getElem hlt]
      exact Except.ok.inj htargets
    rw [← hget] at hb
    exact (h b (hsuccs p b hb) p hlt).2 hb

/-! ## Short paths -/

/-- A path of `n` edges leads from the entry to the block without coming through another one. -/
inductive AvoidsIn (g : Cfg) (a : Nat) : Nat → Nat → Prop
  | entry : g.entry ≠ a → AvoidsIn g a 0 g.entry
  | step {n b c : Nat} : AvoidsIn g a n b → g.Edge b c → c ≠ a → AvoidsIn g a (n + 1) c

theorem Avoids.exists_length (h : g.Avoids a b) : ∃ n, g.AvoidsIn a n b := by
  induction h with
  | entry hne => exact ⟨0, .entry hne⟩
  | step _ hedge hne ih =>
    obtain ⟨n, hn⟩ := ih
    exact ⟨n + 1, .step hn hedge hne⟩

theorem AvoidsIn.avoids (h : g.AvoidsIn a n b) : g.Avoids a b := by
  induction h with
  | entry hne => exact .entry hne
  | step _ hedge hne ih => exact .step ih hedge hne

/-- The path has as few edges as any. -/
def Shortest (g : Cfg) (a n b : Nat) : Prop := g.AvoidsIn a n b ∧ ∀ m, m < n → ¬ g.AvoidsIn a m b

theorem Avoids.exists_shortest (h : g.Avoids a b) : ∃ n, g.Shortest a n b := by
  classical
  have hex := h.exists_length
  exact ⟨Nat.find hex, Nat.find_spec hex, fun m hm => Nat.find_min hex hm⟩

/-- A shortest path comes through one block at every distance, so its blocks are distinct. -/
theorem Shortest.exists_nodup : ∀ {b : Nat}, g.Shortest a n b →
    ∃ path : List Nat, path.length = n + 1 ∧ path.Nodup ∧ ∀ c ∈ path, ∃ m, m ≤ n ∧ g.Shortest a m c := by
  induction n with
  | zero =>
    intro b h
    refine ⟨[b], rfl, List.nodup_singleton b, fun c hc => ⟨0, le_rfl, ?_⟩⟩
    rwa [List.mem_singleton.1 hc]
  | succ n ih =>
    intro c h
    obtain ⟨havoid, hmin⟩ := h
    cases havoid with
    | @step _ b _ hb hedge hne =>
      have hshort : g.Shortest a n b := ⟨hb, fun m hm hm' => hmin (m + 1) (by omega) (.step hm' hedge hne)⟩
      obtain ⟨path, hlength, hnodup, hpath⟩ := ih hshort
      refine ⟨c :: path, by rw [List.length_cons, hlength], List.nodup_cons.2 ⟨fun hc => ?_, hnodup⟩, fun d hd => ?_⟩
      · obtain ⟨m, hm, hcm⟩ := hpath c hc
        exact hmin m (by omega) hcm.1
      · rcases List.mem_cons.1 hd with rfl | hd
        · exact ⟨n + 1, le_rfl, .step hb hedge hne, hmin⟩
        · obtain ⟨m, hm, hdm⟩ := hpath d hd
          exact ⟨m, by omega, hdm⟩

/-- A block that can be avoided is avoided by a path with fewer edges than there are reachable blocks. -/
theorem Avoids.exists_short (h : g.Avoids a b) {blocks : List Nat} (hblocks : ∀ c, g.Reachable c → c ∈ blocks) :
    ∃ n, n < blocks.length ∧ g.AvoidsIn a n b := by
  obtain ⟨n, hn⟩ := h.exists_shortest
  obtain ⟨path, hlength, hnodup, hpath⟩ := hn.exists_nodup
  have hsub : ∀ c ∈ path, c ∈ blocks := by
    intro c hc
    obtain ⟨m, -, hm⟩ := hpath c hc
    exact hblocks c hm.1.avoids.reachable
  have hle := (List.Nodup.subperm hnodup hsub).length_le
  exact ⟨n, by omega, hn.1⟩

end Cfg

namespace ReversePostorder

variable {g : Cfg}

/-- The walk ends in an order when it enters only reachable blocks. -/
theorem exists_walk (hg : g.Explorable) (entered : Array Bool) (left : List Nat) (pending : List Visit)
    (hsize : entered.size = g.capacity) (hpending : ∀ b, .enter b ∈ pending → g.Reachable b) :
    ∃ order, walk g entered left pending = .ok order := by
  fun_induction walk g entered left pending with
  | case1 entered left => exact ⟨left, rfl⟩
  | case2 entered left b rest ih => exact ih hsize fun c hc => hpending c (List.mem_cons_of_mem _ hc)
  | case3 entered left b rest hb hentered ih =>
    exact ih hsize fun c hc => hpending c (List.mem_cons_of_mem _ hc)
  | case4 entered left b rest hb hentered e he =>
    obtain ⟨-, succs, hsuccs⟩ := hg b (hpending b List.mem_cons_self)
    rw [hsuccs] at he
    cases he
  | case5 entered left b rest hb hentered succs hsuccs ih =>
    simp only [List.map_attach_eq_pmap, List.pmap_eq_map] at ih
    have hreach := hpending b List.mem_cons_self
    refine ih (by rw [Array.size_set]; exact hsize) fun c hc => ?_
    have hc' : c ∈ succs ∨ .enter c ∈ rest := by simpa using hc
    rcases hc' with hc' | hc'
    · exact hreach.tail ⟨succs, hsuccs, hc'⟩
    · exact hpending c (List.mem_cons_of_mem _ hc')
  | case6 entered left b rest hb =>
    exact absurd ((hg b (hpending b List.mem_cons_self)).1) (hsize ▸ hb)

/-- A graph that can be explored has an order. -/
theorem ofCfg_total (hg : g.Explorable) : ∃ r, ofCfg g = .ok r := by
  obtain ⟨order, horder⟩ := exists_walk hg (Array.replicate g.capacity false) [] [.enter g.entry]
    Array.size_replicate (fun b hb => by
      cases List.mem_singleton.1 hb
      exact .refl)
  unfold ofCfg
  rw [horder]
  exact ⟨_, rfl⟩

end ReversePostorder

namespace DominatorTree

variable {g : Cfg} {r : ReversePostorder} {sets : Array BlockSet}

/-- No set holds a block that a path of at most `k` edges avoids. -/
def Lacks (g : Cfg) (r : ReversePostorder) (k : Nat) (sets : Array BlockSet) : Prop :=
  ∀ p q a b m, r.order[p]? = some a → r.order[q]? = some b → m ≤ k → g.AvoidsIn a m b →
    (sets.getD q (.empty r.order.length)).contains p = false

/-- The set of a position that is recomputed lacks what the sets of the predecessors lack. -/
theorem Lacks.meet {k : Nat} (h : Lacks g r k sets) (hsets : Bounding g r sets)
    (hr : ReversePostorder.ofCfg g = .ok r) (hg : g.Consistent) {p q a b m : Nat} (hp : r.order[p]? = some a)
    (hq : r.order[q]? = some b) (hpos : 0 < q) (hm : m ≤ k + 1) (havoid : g.AvoidsIn a m b) :
    (meet r.order.length sets ((predPositions g r).getD q []) q).contains p = false := by
  obtain ⟨-, -, hmem, -, -⟩ := ReversePostorder.ofCfg_spec hr
  cases havoid with
  | entry hne =>
    have hzero := position_inj hr hq (order_zero hr)
    omega
  | @step n c _ hc hedge hne =>
    obtain ⟨j, hj⟩ := List.getElem?_of_mem ((hmem c).2 hc.avoids.reachable)
    rw [← Bool.not_eq_true, (contains_meet hsets.sized (List.getElem?_eq_some_iff.1 hq).1 _).2]
    rintro ⟨-, rfl | hall⟩
    · exact hne (Option.some.inj (hq.symm.trans hp))
    · have hin := hall j ((mem_preds_iff hr hg hq).2 ⟨c, hj, hedge⟩)
      rw [h p j a c n hp hj (by omega) hc] at hin
      cases hin

/-- What holds in the middle of a round: the positions up to `i` are one edge ahead. -/
structure Halfway (g : Cfg) (r : ReversePostorder) (k i : Nat) (sets : Array BlockSet) : Prop where
  bounding : Bounding g r sets
  lacks : Lacks g r k sets
  ahead : ∀ p q a b m, r.order[p]? = some a → r.order[q]? = some b → q < i → m ≤ k + 1 → g.AvoidsIn a m b →
    (sets.getD q (.empty r.order.length)).contains p = false

/-- One position of a round. -/
theorem Halfway.refineAt {k i : Nat} {state : Array BlockSet × Bool} (h : Halfway g r k i state.1)
    (hr : ReversePostorder.ofCfg g = .ok r) (hg : g.Consistent) (hpos : 0 < i) (hi : i < r.order.length) :
    Halfway g r k (i + 1) (refineAt r.order.length (predPositions g r) state i).1 := by
  unfold DominatorTree.refineAt
  dsimp only
  have hmeet := fun p a b m hp hq => h.lacks.meet h.bounding hr hg (p := p) (q := i) (a := a) (b := b) (m := m) hp hq hpos
  split
  · rename_i hsame
    refine ⟨h.bounding, h.lacks, fun p q a b m hp hq hlt hm havoid => ?_⟩
    rcases Nat.lt_succ_iff_lt_or_eq.1 hlt with hlt | rfl
    · exact h.ahead p q a b m hp hq hlt hm havoid
    · rw [← hsame]
      exact hmeet p a b m hp hq hm havoid
  · refine ⟨h.bounding.recompute hr hg hpos hi, fun p q a b m hp hq hm havoid => ?_,
      fun p q a b m hp hq hlt hm havoid => ?_⟩
    · rw [h.bounding.getD_set hi]
      split
      · subst q
        exact hmeet p a b m hp hq (by omega) havoid
      · exact h.lacks p q a b m hp hq hm havoid
    · rw [h.bounding.getD_set hi]
      split
      · subst q
        exact hmeet p a b m hp hq hm havoid
      · exact h.ahead p q a b m hp hq (by omega) hm havoid

/-- A round is one edge ahead of the round before. -/
theorem Lacks.refine {k : Nat} (h : Lacks g r k sets) (hsets : Bounding g r sets)
    (hr : ReversePostorder.ofCfg g = .ok r) (hg : g.Consistent) :
    Bounding g r (refine r.order.length (predPositions g r) sets).1 ∧
      Lacks g r (k + 1) (refine r.order.length (predPositions g r) sets).1 := by
  have hfold : ∀ (count i : Nat) (state : Array BlockSet × Bool), 0 < i → i + count ≤ r.order.length →
      Halfway g r k i state.1 → Halfway g r k (i + count)
        ((List.range' i count).foldl (DominatorTree.refineAt r.order.length (predPositions g r)) state).1 := by
    intro count
    induction count with
    | zero => exact fun i state _ _ hstate => hstate
    | succ count ih =>
      intro i state hpos hle hstate
      rw [List.range'_succ, List.foldl_cons]
      have hnext := ih (i + 1) _ (by omega) (by omega) (hstate.refineAt hr hg hpos (by omega))
      rwa [Nat.add_right_comm] at hnext
  have hfirst := order_zero hr
  have hlen := (List.getElem?_eq_some_iff.1 hfirst).1
  have hstart : Halfway g r k 1 sets := by
    refine ⟨hsets, h, fun p q a b m hp hq hlt _ havoid => ?_⟩
    -- The set of the entry has only the entry, which no path avoids.
    obtain rfl : q = 0 := by omega
    rw [← Bool.not_eq_true, hsets.entry]
    rintro rfl
    obtain rfl : a = b := Option.some.inj (hp.symm.trans hq)
    exact Cfg.Dominates.refl g a havoid.avoids
  have hend := hfold (r.order.length - 1) 1 (sets, false) Nat.one_pos (by omega) hstart
  refine ⟨hend.bounding, fun p q a b m hp hq hm havoid => ?_⟩
  exact hend.ahead p q a b m hp hq (by have := (List.getElem?_eq_some_iff.1 hq).1; omega) hm havoid

/-- After as many rounds as there are blocks, less one, the sets are exact. -/
theorem Lacks.exact {k : Nat} (h : Lacks g r k sets) (hsets : Bounding g r sets)
    (hr : ReversePostorder.ofCfg g = .ok r) (hk : r.order.length ≤ k + 1) : IsExact g r sets := by
  obtain ⟨-, -, hmem, -, -⟩ := ReversePostorder.ofCfg_spec hr
  refine fun p q a b hp hq => ⟨fun hin havoid => ?_, hsets.dominators p q a b hp hq⟩
  obtain ⟨n, hn, hshort⟩ := havoid.exists_short fun c hc => (hmem c).2 hc
  rw [h p q a b n hp hq (by omega) hshort] at hin
  cases hin

/-- Recomputing a position of exact sets changes nothing. -/
theorem IsExact.meet_eq (h : IsExact g r sets) (hsets : Bounding g r sets)
    (hr : ReversePostorder.ofCfg g = .ok r) (hg : g.Consistent) {i : Nat} (hpos : 0 < i) (hi : i < r.order.length) :
    meet r.order.length sets ((predPositions g r).getD i []) i = sets.getD i (.empty r.order.length) := by
  obtain ⟨-, -, hmem, -, -⟩ := ReversePostorder.ofCfg_spec hr
  obtain ⟨b, hb⟩ : ∃ b, r.order[i]? = some b := ⟨_, List.getElem?_eq_getElem hi⟩
  obtain ⟨hwithin, hmeet⟩ := contains_meet hsets.sized hi ((predPositions g r).getD i [])
  refine hwithin.ext (hsets.sized.within i) fun p => (hmeet p).trans ⟨?_, fun hin => ?_⟩
  · rintro ⟨hp, hcase⟩
    have ha : r.order[p]? = some r.order[p] := List.getElem?_eq_getElem hp
    refine (h p i _ _ ha hb).2 ?_
    rcases hcase with rfl | hall
    · rw [Option.some.inj (ha.symm.trans hb)]
      exact .refl g b
    · -- A path that avoids the block comes over a predecessor, whose set holds the position.
      intro havoid
      cases havoid with
      | entry hne => exact absurd (position_inj hr hb (order_zero hr)) (by omega)
      | @step c _ hc hedge hne =>
        obtain ⟨j, hj⟩ := List.getElem?_of_mem ((hmem c).2 hc.reachable)
        exact (h p j _ c ha hj).1 (hall j ((mem_preds_iff hr hg hb).2 ⟨c, hj, hedge⟩)) hc
  · have hp : p < r.order.length := by
      unfold BlockSet.contains at hin
      rw [Bool.and_eq_true, decide_eq_true_eq, hsets.sized.len i] at hin
      exact hin.1
    have ha : r.order[p]? = some r.order[p] := List.getElem?_eq_getElem hp
    refine ⟨hp, or_iff_not_imp_left.2 fun hne j hj => ?_⟩
    obtain ⟨c, hc, hedge⟩ := (mem_preds_iff hr hg hb).1 hj
    refine (h p j _ c ha hc).2 (((h p i _ _ ha hb).1 hin).of_edge (fun heq => hne ?_) hedge)
    exact position_inj hr (heq ▸ ha) hb

/-- A round over settled positions changes nothing. -/
theorem foldl_refineAt_of_settled {l : List Nat} {state : Array BlockSet × Bool}
    (h : ∀ i ∈ l, meet n state.1 (preds.getD i []) i = state.1.getD i (.empty n)) :
    l.foldl (refineAt n preds) state = state := by
  induction l with
  | nil => rfl
  | cons i l ih =>
    have hstep : refineAt n preds state i = state := if_pos (h i List.mem_cons_self)
    rw [List.foldl_cons, hstep]
    exact ih fun j hj => h j (List.mem_cons_of_mem _ hj)

/-- The rounds settle: there are no more of them than reachable blocks. -/
theorem exists_settle (hr : ReversePostorder.ofCfg g = .ok r) (hg : g.Consistent) {limit : Nat} :
    ∀ {done : Nat} {sets : Array BlockSet}, Bounding g r sets → Lacks g r done sets → 0 < limit →
      r.order.length ≤ done + limit → done < r.order.length →
      ∃ domBy rounds, settle r.order.length (predPositions g r) limit done sets = some (domBy, rounds) ∧
        rounds ≤ r.order.length := by
  induction limit with
  | zero => exact fun _ _ h _ _ => absurd h (Nat.lt_irrefl 0)
  | succ limit ih =>
    intro done sets hsets hlacks _ hlimit hdone
    obtain ⟨hsets', hlacks'⟩ := hlacks.refine hsets hr hg
    rw [settle]
    dsimp only
    by_cases hchanged : (DominatorTree.refine r.order.length (predPositions g r) sets).2 = true
    · rw [if_pos hchanged]
      have hmore : done + 1 < r.order.length := by
        by_contra hge
        have hexact := hlacks.exact hsets hr (by omega)
        have hsame : DominatorTree.refine r.order.length (predPositions g r) sets = (sets, false) :=
          foldl_refineAt_of_settled fun i hi => by
            rw [List.mem_range'_1] at hi
            exact hexact.meet_eq hsets hr hg (by omega) (by omega)
        rw [hsame] at hchanged
        cases hchanged
      exact ih hsets' hlacks' (by omega) (by omega) hmore
    · rw [if_neg hchanged]
      exact ⟨_, _, rfl, hdone⟩

/-- Before the first round no set holds a block that the empty path avoids. -/
theorem lacks_startSets (hr : ReversePostorder.ofCfg g = .ok r) : Lacks g r 0 (startSets r.order.length) := by
  intro p q a b m hp hq hm havoid
  obtain rfl : m = 0 := by omega
  cases havoid with
  | entry hne =>
    obtain rfl := position_inj hr hq (order_zero hr)
    rw [← Bool.not_eq_true, (bounding_startSets hr).entry]
    rintro rfl
    exact hne (Option.some.inj (hq.symm.trans hp))

/-! ## Immediate dominators and frontiers -/

variable {t : DominatorTree} {q : Nat}

/-- The set of a position does not depend on what stands for missing sets. -/
theorem Sized.getD_eq (h : Sized n sets) (hq : q < n) : sets.getD q (.empty 0) = sets.getD q (.empty n) := by
  rw [← h.size] at hq
  rw [Array.getD_eq_getD_getElem?, Array.getD_eq_getD_getElem?, Array.getElem?_eq_getElem hq]
  rfl

section Exact

variable (hexact : IsExact g r sets) (hsized : Sized r.order.length sets) (hr : ReversePostorder.ofCfg g = .ok r)

include hexact hsized

/-- Positions in the sets are those of dominators. -/
theorem IsExact.contains_iff {p a b : Nat} (hp : r.order[p]? = some a) (hq : r.order[q]? = some b) :
    (sets.getD q (.empty 0)).contains p = true ↔ g.Dominates a b := by
  rw [hsized.getD_eq (List.getElem?_eq_some_iff.1 hq).1]
  exact hexact p q a b hp hq

omit hexact in
/-- The sets hold positions. -/
theorem Sized.lt_of_contains {p : Nat} (hin : (sets.getD q (.empty 0)).contains p = true) :
    p < r.order.length ∧ q < r.order.length := by
  have hq : q < r.order.length := by
    by_contra hge
    rw [Array.getD_eq_getD_getElem?, Array.getElem?_eq_none (by rw [hsized.size]; omega)] at hin
    simp [BlockSet.contains, BlockSet.empty] at hin
  rw [hsized.getD_eq hq] at hin
  unfold BlockSet.contains at hin
  rw [Bool.and_eq_true, decide_eq_true_eq, hsized.len q] at hin
  exact ⟨hin.1, hq⟩

include hr

/-- A position has more dominators than any of its strict dominators. -/
theorem IsExact.length_lt {p a b : Nat} (hp : r.order[p]? = some a) (hq : r.order[q]? = some b)
    (hdom : g.Dominates a b) (hne : a ≠ b) :
    (sets.getD p (.empty 0)).toList.length < (sets.getD q (.empty 0)).toList.length := by
  obtain ⟨-, -, hmem, -, -⟩ := ReversePostorder.ofCfg_spec hr
  have hself : q ∈ (sets.getD q (.empty 0)).toList :=
    BlockSet.mem_toList.2 ((hexact.contains_iff hsized hq hq).2 (.refl g b))
  have hnodup : (sets.getD p (.empty 0)).toList.Nodup := List.nodup_range.filter _
  have hsub : ∀ x ∈ (sets.getD p (.empty 0)).toList, x ∈ (sets.getD q (.empty 0)).toList.erase q := by
    intro x hx
    rw [BlockSet.mem_toList] at hx
    have hxa := List.getElem?_eq_getElem (hsized.lt_of_contains hx).1
    have hxp := (hexact.contains_iff hsized hxa hp).1 hx
    refine (List.mem_erase_of_ne ?_).2 (BlockSet.mem_toList.2 ((hexact.contains_iff hsized hxa hq).2 (hxp.trans hdom)))
    rintro rfl
    rw [hq] at hxa
    rw [← Option.some.inj hxa] at hxp
    exact hne (hdom.antisymm hxp ((hmem a).1 (List.mem_of_getElem? hp)))
  have hle := (List.Nodup.subperm hnodup hsub).length_le
  rw [List.length_erase_of_mem hself] at hle
  have hpos := List.length_pos_of_mem hself
  omega

/-- Every position but the entry has a nearest strict dominator: the one with the most dominators. -/
theorem IsExact.exists_nearest {b : Nat} (hq : r.order[q]? = some b) (hpos : 0 < q) :
    ∃ d, nearest? sets q = some d := by
  have hfirst := order_zero hr
  unfold nearest?
  dsimp only
  generalize hstrict : (sets.getD q (.empty 0)).toList.filter (· != q) = strict
  have hmem : ∀ d, d ∈ strict ↔ (sets.getD q (.empty 0)).contains d = true ∧ d ≠ q := by
    intro d
    rw [← hstrict, List.mem_filter, BlockSet.mem_toList, bne_iff_ne]
  have hentry : 0 ∈ strict := (hmem 0).2 ⟨(hexact.contains_iff hsized hfirst hq).2 (.of_entry g b), by omega⟩
  obtain ⟨d, hd⟩ : ∃ d, d ∈ strict.argmax fun x => (sets.getD x (.empty 0)).toList.length := by
    refine Option.ne_none_iff_exists'.1 fun hnone => ?_
    rw [List.argmax_eq_none.1 hnone] at hentry
    exact List.not_mem_nil hentry
  rw [← Option.isSome_iff_exists, List.find?_isSome]
  have hdmem := List.argmax_mem hd
  refine ⟨d, hdmem, List.all_eq_true.2 fun x hx => ?_⟩
  rw [Bool.or_eq_true, beq_iff_eq, Bool.not_eq_true', or_iff_not_imp_left]
  intro hne
  rw [← Bool.not_eq_true]
  intro hin
  have hlt := hsized.lt_of_contains hin
  have hda := List.getElem?_eq_getElem hlt.1
  have hxa := List.getElem?_eq_getElem hlt.2
  refine List.not_lt_of_mem_argmax hx hd
    (hexact.length_lt hsized hr hda hxa ((hexact.contains_iff hsized hda hxa).1 hin) fun heq => hne ?_)
  exact position_inj hr (heq ▸ hxa) hda

theorem IsExact.exists_immediate : ∃ idom, immediate g r.order sets = .ok idom := by
  let answer := fun e : Nat × Nat => if e.2 = 0 then none else nearest? sets e.2
  refine ⟨(r.order.zipIdx.map answer).toArray, Outcome.bind_eq_ok.2 ⟨_, Outcome.mapM_eq_ok ?_, rfl⟩⟩
  rintro ⟨block, q⟩ he
  unfold answer
  dsimp only
  by_cases h0 : q = 0
  · rw [if_pos h0, if_pos h0]
    rfl
  · obtain ⟨d, hd⟩ := hexact.exists_nearest hsized hr (List.mem_zipIdx_iff_getElem?.1 he) (Nat.pos_of_ne_zero h0)
    dsimp only at hd
    rw [if_neg h0, if_neg h0, hd]
    rfl

end Exact

/-- The frontiers are found when all successors are known. -/
theorem exists_frontiers (hg : g.Explorable) (hr : ReversePostorder.ofCfg g = .ok r) (sets : Array BlockSet)
    (idom : Array (Option Nat)) : ∃ frontier, frontiers g r sets idom = .ok frontier := by
  obtain ⟨-, -, hmem, -, -⟩ := ReversePostorder.ofCfg_spec hr
  refine Outcome.exists_foldlM (fun e he frontier => ?_) _
  have hreach := (hmem e.1).1 (List.mem_of_getElem? (List.mem_zipIdx_iff_getElem?.1 he))
  obtain ⟨-, succs, hsuccs⟩ := hg e.1 hreach
  exact Outcome.exists_bind ⟨succs, hsuccs⟩ fun _ _ => ⟨_, rfl⟩

/-- A graph that can be explored has a dominator tree, and it takes no more rounds than there are blocks. -/
theorem ofCfg_total (hg : g.Explorable) (hc : g.Consistent) : ∃ t, ofCfg g = .ok t ∧ t.rounds ≤ t.blocks.length := by
  obtain ⟨r, hr⟩ := ReversePostorder.ofCfg_total hg
  have hlen := (List.getElem?_eq_some_iff.1 (order_zero hr)).1
  have hlimit : r.order.length ≤ 0 + (r.order.length + 3) := by omega
  obtain ⟨domBy, rounds, hsettle, hrounds⟩ :=
    exists_settle hr hc (bounding_startSets hr) (lacks_startSets hr) (by omega) hlimit hlen
  obtain ⟨hsized, hexact⟩ := settle_exact hr hc hsettle
  obtain ⟨idom, hidom⟩ := hexact.exists_immediate hsized hr
  obtain ⟨frontier, hfrontier⟩ := exists_frontiers hg hr domBy idom
  unfold ofCfg
  rw [hr]
  dsimp only [bind, Except.bind]
  rw [hsettle]
  dsimp only
  rw [hidom]
  dsimp only
  rw [hfrontier]
  exact ⟨_, rfl, hrounds⟩

/-- The parts of a tree. -/
theorem ofCfg_parts (h : ofCfg g = .ok t) : ReversePostorder.ofCfg g = .ok t.order ∧
      settle t.order.order.length (predPositions g t.order)
        (t.order.order.length + 3) 0 (startSets t.order.order.length) = some (t.domBy, t.rounds) ∧
      immediate g t.order.order t.domBy = .ok t.idom ∧ frontiers g t.order t.domBy t.idom = .ok t.frontier := by
  unfold ofCfg at h
  obtain ⟨r, hr, h⟩ := Outcome.bind_eq_ok.1 h
  dsimp only at h
  split at h
  · cases h
  · rename_i domBy rounds hsettle
    obtain ⟨idom, hidom, h⟩ := Outcome.bind_eq_ok.1 h
    obtain ⟨frontier, hfrontier, h⟩ := Outcome.bind_eq_ok.1 h
    cases h
    exact ⟨hr, hsettle, hidom, hfrontier⟩

/-- The question of the tree whether a block dominates another one. -/
theorem dominates_iff (h : ofCfg g = .ok t) (hc : g.Consistent) (a b : Nat) :
    t.dominates a b = true ↔ g.Reachable a ∧ g.Reachable b ∧ g.Dominates a b := by
  obtain ⟨hr, hsettle, -, -⟩ := ofCfg_parts h
  obtain ⟨hsized, hexact⟩ := settle_exact hr hc hsettle
  obtain ⟨-, -, hmem, -, hpos⟩ := ReversePostorder.ofCfg_spec hr
  have hreach : ∀ c, g.Reachable c ↔ ∃ p, t.order.position? c = some p := by
    intro c
    rw [← hmem c, List.mem_iff_getElem?]
    exact exists_congr fun p => (hpos c p).symm
  unfold dominates position?
  rw [hreach a, hreach b]
  split
  · rename_i p q hp hq
    rw [hexact.contains_iff hsized ((hpos a p).1 hp) ((hpos b q).1 hq), hp, hq]
    exact ⟨fun hdom => ⟨⟨p, rfl⟩, ⟨q, rfl⟩, hdom⟩, fun hall => hall.2.2⟩
  · rename_i hnone
    constructor
    · exact fun hfalse => absurd hfalse Bool.false_ne_true
    · rintro ⟨⟨p, hp⟩, ⟨q, hq⟩, -⟩
      exact absurd hq (hnone p q hp)

/-- Dominators are exact and the rounds always settle: a graph of any shape has a tree, found in no more rounds than
there are reachable blocks, and the tree tells that a block dominates another one iff both are reachable and every
path from the entry to the other comes through it. -/
theorem dominates_exactly (hg : g.Explorable) (hc : g.Consistent) :
    ∃ t, ofCfg g = .ok t ∧ t.rounds ≤ t.blocks.length ∧
      ∀ a b, t.dominates a b = true ↔ g.Reachable a ∧ g.Reachable b ∧ g.Dominates a b := by
  obtain ⟨t, ht, hrounds⟩ := ofCfg_total hg hc
  exact ⟨t, ht, hrounds, dominates_iff ht hc⟩

/-- An irreducible graph: two blocks enter a cycle, one of them twice by the same edge and one with a loop of its own;
the entry is a target too, and an island that nothing reaches leads into the cycle. -/
def crossedEntries : Cfg :=
  .ofAdjacency "crossed" #[[1, 2], [2, 1], [4, 4], [3, 1], [1, 0]] #[[4], [0, 1, 3, 4], [0, 1], [3], [2, 2]]

theorem explorable_crossedEntries : crossedEntries.Explorable := by
  refine Cfg.explorable_ofAdjacency (by decide) fun b c hc => ?_
  match b with
  | 0 | 1 | 2 | 3 | 4 => revert c; decide
  | b + 5 => exact absurd hc List.not_mem_nil

theorem consistent_crossedEntries : crossedEntries.Consistent := by
  refine Cfg.consistent_ofAdjacency (by decide) (fun b p hp => ?_) fun p b hb => ?_
  · match b with
    | 0 | 1 | 2 | 3 | 4 => revert p; decide
    | b + 5 => exact absurd hp List.not_mem_nil
  · match p with
    | 0 | 1 | 2 | 3 | 4 => revert b; decide
    | p + 5 => exact absurd hb List.not_mem_nil

theorem dominates_exactly_crossedEntries : ∃ t, ofCfg crossedEntries = .ok t ∧ t.rounds ≤ t.blocks.length ∧
    ∀ a b, t.dominates a b = true ↔
      crossedEntries.Reachable a ∧ crossedEntries.Reachable b ∧ crossedEntries.Dominates a b :=
  dominates_exactly explorable_crossedEntries consistent_crossedEntries

end DominatorTree

end SsaCompiler
