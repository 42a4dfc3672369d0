import SsaCompiler.Proofs.Graph.Convergence
import Mathlib

/-!
# The order is topological up to cycles

An edge between listed blocks leads forward in the reverse postorder unless a path leads back from its target to its
source (`walk_sorted`). The blocks that the walk still has to leave lie on one path, the latest of them last, and
whatever stands above such a block among the pending steps is reached from it (`Descending`). So when a block is left,
each of its successors was left before it or lies on the path that leads to the block.
-/

set_option autoImplicit false

namespace SsaCompiler

open Relation

/-- No path leads from a reachable block back to it. -/
def Cfg.Acyclic (g : Cfg) : Prop := ∀ b, g.Reachable b → ¬ TransGen g.Edge b b

/-- The block of a pending step. -/
def Visit.block : Visit → Nat
  | .enter b | .leave b => b

namespace ReversePostorder

variable {g : Cfg} {entered : Array Bool} {left : List Nat} {pending : List Visit}

/-- What a listed block leads to is listed behind it, or a path leads back. -/
def Sorted (g : Cfg) (order : List Nat) : Prop :=
  ∀ u rest, (u :: rest) <:+ order → ∀ v, g.Edge u v → v ∈ rest ∨ ReflTransGen g.Edge v u

/-- What the walk keeps of the order of its pending steps. -/
structure Descending (g : Cfg) (entered : Array Bool) (left : List Nat) (pending : List Visit) : Prop where
  sorted : Sorted g left
  /-- Paths lead from the blocks that are to be left to what stands above them. -/
  above : pending.Pairwise fun x y => ∀ b, y = .leave b → ReflTransGen g.Edge b x.block
  /-- The successors of a block that is to be left are done, open, or entered before it is left. -/
  covered : ∀ before b rest, pending = before ++ .leave b :: rest → ∀ v, g.Edge b v →
    v ∈ left ∨ .leave v ∈ pending ∨ .enter v ∈ before
  known : ∀ b, entered[b]? = some true → b ∈ left ∨ .leave b ∈ pending

namespace Descending

variable {rest : List Visit}

variable {b : Nat}

/-- Leaving a block: its successors were left before it, or lie on the path to it. -/
theorem leave (h : Descending g entered left (.leave b :: rest)) : Descending g entered (b :: left) rest := by
  obtain ⟨hhead, htail⟩ := List.pairwise_cons.1 h.above
  have hopen : ∀ v, .leave v ∈ Visit.leave b :: rest → v = b ∨ .leave v ∈ rest := by
    intro v hv
    exact (List.mem_cons.1 hv).imp_left fun heq => by cases heq; rfl
  refine ⟨fun u more hsuffix v hedge => ?_, htail, fun before c below hpending v hedge => ?_, fun c hc => ?_⟩
  · rcases List.suffix_cons_iff.1 hsuffix with heq | hsuffix
    · cases heq
      rcases h.covered [] b rest rfl v hedge with hv | hv | hv
      · exact .inl hv
      · rcases hopen v hv with rfl | hv
        · exact .inr .refl
        · exact .inr (hhead _ hv v rfl)
      · exact absurd hv List.not_mem_nil
    · exact h.sorted u more hsuffix v hedge
  · rcases h.covered (.leave b :: before) c below (by rw [hpending]; rfl) v hedge with hv | hv | hv
    · exact .inl (List.mem_cons_of_mem _ hv)
    · rcases hopen v hv with rfl | hv
      · exact .inl List.mem_cons_self
      · exact .inr (.inl hv)
    · exact .inr (.inr ((List.mem_cons.1 hv).resolve_left Visit.noConfusion))
  · rcases h.known c hc with hv | hv
    · exact .inl (List.mem_cons_of_mem _ hv)
    · rcases hopen c hv with rfl | hv
      · exact .inl List.mem_cons_self
      · exact .inr hv

/-- Passing over a block that was entered before. -/
theorem skip (h : Descending g entered left (.enter b :: rest)) (hb : entered[b]? = some true) :
    Descending g entered left rest := by
  have hopen : ∀ v, .leave v ∈ Visit.enter b :: rest → .leave v ∈ rest := fun v hv =>
    (List.mem_cons.1 hv).resolve_left Visit.noConfusion
  refine ⟨h.sorted, (List.pairwise_cons.1 h.above).2, fun before c below hpending v hedge => ?_,
    fun c hc => (h.known c hc).imp_right (hopen c)⟩
  rcases h.covered (.enter b :: before) c below (by rw [hpending]; rfl) v hedge with hv | hv | hv
  · exact .inl hv
  · exact .inr (.inl (hopen v hv))
  · rcases List.mem_cons.1 hv with heq | hv
    · cases heq
      exact (h.known b hb).imp_right fun hv => .inl (hopen b hv)
    · exact .inr (.inr hv)

/-- Entering a block: its successors come above it. -/
theorem enter {succs : List Nat} (h : Descending g entered left (.enter b :: rest)) (hb : b < entered.size)
    (hsuccs : g.succs b = .ok succs) :
    Descending g (entered.set b true) left ((succs.map Visit.enter).reverse ++ .leave b :: rest) := by
  obtain ⟨hhead, htail⟩ := List.pairwise_cons.1 h.above
  have hnew : ∀ x ∈ (succs.map Visit.enter).reverse, ∃ s ∈ succs, x = .enter s := by
    intro x hx
    obtain ⟨s, hs, rfl⟩ := List.mem_map.1 (List.mem_reverse.1 hx)
    exact ⟨s, hs, rfl⟩
  have hopen : ∀ v, .leave v ∈ Visit.enter b :: rest →
      .leave v ∈ (succs.map Visit.enter).reverse ++ .leave b :: rest := fun v hv =>
    List.mem_append_right _ (List.mem_cons_of_mem _ ((List.mem_cons.1 hv).resolve_left Visit.noConfusion))
  refine ⟨h.sorted, List.pairwise_append.2 ⟨?_, List.pairwise_cons.2 ⟨hhead, htail⟩, fun x hx y hy c hc => ?_⟩,
    fun before c below hpending v hedge => ?_, fun c hc => ?_⟩
  · refine List.pairwise_of_forall_mem_list fun x _ y hy c hc => ?_
    obtain ⟨s, -, rfl⟩ := hnew y hy
    cases hc
  · obtain ⟨s, hs, rfl⟩ := hnew x hx
    have hbs : g.Edge b s := ⟨succs, hsuccs, hs⟩
    rcases List.mem_cons.1 hy with rfl | hy
    · cases hc
      exact .single hbs
    · exact (hhead y hy c hc).tail hbs
  · -- The block to be left is the one just entered, with all its successors above it, or stands below that one.
    rcases List.append_eq_append_iff.1 hpending with ⟨more, hbefore, hrest⟩ | ⟨more, henters, hrest⟩
    · cases more with
      | nil =>
        cases hrest
        obtain ⟨targets, htargets, hv⟩ := hedge
        obtain rfl : succs = targets := Except.ok.inj (hsuccs.symm.trans htargets)
        refine .inr (.inr ?_)
        rw [hbefore, List.append_nil]
        exact List.mem_reverse.2 (List.mem_map.2 ⟨v, hv, rfl⟩)
      | cons x more =>
        obtain ⟨rfl, hrest'⟩ := List.cons.inj hrest
        rcases h.covered (.enter b :: more) c below (by rw [hrest']; rfl) v hedge with hv | hv | hv
        · exact .inl hv
        · exact .inr (.inl (hopen v hv))
        · rcases List.mem_cons.1 hv with heq | hv
          · cases heq
            exact .inr (.inl (List.mem_append_right _ List.mem_cons_self))
          · refine .inr (.inr ?_)
            rw [hbefore]
            exact List.mem_append_right _ (List.mem_cons_of_mem _ hv)
    · cases more with
      | nil =>
        rw [List.append_nil] at henters
        cases hrest
        obtain ⟨targets, htargets, hv⟩ := hedge
        obtain rfl : succs = targets := Except.ok.inj (hsuccs.symm.trans htargets)
        exact .inr (.inr (henters ▸ List.mem_reverse.2 (List.mem_map.2 ⟨v, hv, rfl⟩)))
      | cons x more =>
        obtain ⟨rfl, -⟩ := List.cons.inj hrest
        obtain ⟨s, -, heq⟩ := hnew (.leave c) (henters ▸ List.mem_append_right _ List.mem_cons_self)
        cases heq
  · rcases getElem?_set_true (h := hb) hc with hc | rfl
    · exact (h.known c hc).imp_right (hopen c)
    · exact .inr (List.mem_append_right _ List.mem_cons_self)

end Descending

/-- The walk lists the blocks in order. -/
theorem walk_sorted (g : Cfg) (entered : Array Bool) (left : List Nat) (pending : List Visit) {order : List Nat}
    (h : walk g entered left pending = .ok order) (hdesc : Descending g entered left pending) : Sorted g order := by
  fun_induction walk g entered left pending with
  | case1 entered left =>
    cases h
    exact hdesc.sorted
  | case2 entered left b rest ih => exact ih h hdesc.leave
  | case3 entered left b rest hb hentered ih =>
    exact ih h (hdesc.skip (by rw [Array.getElem?_eq_getElem hb, hentered]))
  | case4 => cases h
  | case5 entered left b rest hb hentered succs hsuccs ih =>
    simp only [List.map_attach_eq_pmap, List.pmap_eq_map] at ih
    exact ih h (hdesc.enter hb hsuccs)
  | case6 => cases h

variable {r : ReversePostorder}

/-- The order of a graph is sorted. -/
theorem sorted_order (h : ofCfg g = .ok r) : Sorted g r.order := by
  obtain ⟨order, hwalk, hpure⟩ := Outcome.bind_eq_ok.1 h
  cases hpure
  refine walk_sorted g _ _ _ hwalk ⟨fun u rest hsuffix => ?_, List.pairwise_singleton _ _,
    fun before b rest hpending => ?_, fun b hb => ?_⟩
  · exact absurd (List.suffix_nil.1 hsuffix) (List.cons_ne_nil _ _)
  · cases before with
    | nil => cases hpending
    | cons x more => simp at hpending
  · rw [Array.getElem?_replicate] at hb
    split at hb <;> cases hb

/-- An edge that does not lead forward closes a cycle. -/
theorem path_back (h : ofCfg g = .ok r) {u v p q : Nat} (hedge : g.Edge u v) (hp : r.position? u = some p)
    (hq : r.position? v = some q) (hle : q ≤ p) : ReflTransGen g.Edge v u := by
  obtain ⟨hnodup, -, -, -, hpos⟩ := ofCfg_spec h
  obtain ⟨hlt, hu⟩ := List.getElem?_eq_some_iff.1 ((hpos u p).1 hp)
  have hsuffix : (u :: r.order.drop (p + 1)) <:+ r.order := by
    rw [← hu, ← List.drop_eq_getElem_cons hlt]
    exact List.drop_suffix p r.order
  refine (sorted_order h u _ hsuffix v hedge).resolve_left fun hv => ?_
  obtain ⟨k, hk⟩ := List.getElem?_of_mem hv
  rw [List.getElem?_drop] at hk
  have heq : p + 1 + k = q := Option.some.inj (((hpos v _).2 hk).symm.trans hq)
  omega

/-- **The reverse postorder is correct.** A graph whose reachable blocks have known successors has an order. It lists
the reachable blocks, each once, the entry first, and the places are those in the list. An edge to a block that does
not stand behind its source closes a cycle; so without cycles every edge leads forward. -/
theorem order_exactly (hg : g.Explorable) : ∃ r, ofCfg g = .ok r ∧
    r.order.Nodup ∧ r.order.head? = some g.entry ∧ (∀ b, b ∈ r.order ↔ g.Reachable b) ∧
    (∀ b p, r.position? b = some p ↔ r.order[p]? = some b) ∧
    (∀ u v p q, g.Edge u v → r.position? u = some p → r.position? v = some q → q ≤ p → ReflTransGen g.Edge v u) ∧
    (g.Acyclic → ∀ u v p q, g.Edge u v → r.position? u = some p → r.position? v = some q → p < q) := by
  obtain ⟨r, hr⟩ := ofCfg_total hg
  obtain ⟨hnodup, hhead, hmem, -, hpos⟩ := ofCfg_spec hr
  have hback : ∀ u v p q, g.Edge u v → r.position? u = some p → r.position? v = some q → q ≤ p →
      ReflTransGen g.Edge v u := fun u v p q hedge hp hq hle => path_back hr hedge hp hq hle
  refine ⟨r, hr, hnodup, hhead, hmem, hpos, hback, fun hacyclic u v p q hedge hp hq => ?_⟩
  by_contra hle
  have hu : g.Reachable u := (hmem u).1 (List.mem_of_getElem? ((hpos u p).1 hp))
  exact hacyclic u hu (.head' hedge (hback u v p q hedge hp hq (Nat.le_of_not_lt hle)))

/-- Of the two blocks of the crossed cycle one is listed first, and the edge back to it closes the cycle. -/
theorem order_exactly_crossedEntries : DominatorTree.crossedEntries.Explorable ∧
    ∃ r, ofCfg DominatorTree.crossedEntries = .ok r ∧ r.order = [0, 2, 4, 1] ∧
      ReflTransGen DominatorTree.crossedEntries.Edge 2 1 := by
  obtain ⟨r, hr, -, -, -, -, hback, -⟩ := order_exactly DominatorTree.explorable_crossedEntries
  have horder : ofCfg DominatorTree.crossedEntries = .ok ⟨[0, 2, 4, 1], #[some 0, some 3, some 1, none, some 2]⟩ := by
    cbv
  cases hr.symm.trans horder
  exact ⟨DominatorTree.explorable_crossedEntries, _, horder, rfl,
    hback 1 2 3 1 ⟨[2, 1], rfl, by decide⟩ (by decide) (by decide) (by decide)⟩

end ReversePostorder

end SsaCompiler
