import SsaCompiler.Graph.LoopForest
import SsaCompiler.Proofs.Graph.TreeOrder

/-!
# Natural loops

A back edge leads to a block that dominates its source, the header; the loop of a header holds the header and the
reachable blocks that reach the source of a back edge without coming through the header. All of them are dominated by
the header, so of two loops that share a block one lies within the other, in graphs of any shape (`InLoop.header_in`,
`InLoop.trans`).

Loops are found children first in the dominator tree, so of the loops around a block the smallest one has the least
number. While a loop grows, every block that was looked at belongs to it, and whatever leads to a block looked at is
looked at or still pending (`Growing`); when nothing is pending, the loop is complete.
-/

set_option autoImplicit false

namespace SsaCompiler

namespace Cfg

variable {g : Cfg} {h h' b c p : Nat}

/-- An edge leads back to a block that dominates its source. -/
def BackEdge (g : Cfg) (p h : Nat) : Prop := g.Reachable p ∧ g.Edge p h ∧ g.Dominates h p

/-- A path leads from one block to another without coming through `h`. -/
inductive ReachesWithout (g : Cfg) (h : Nat) : Nat → Nat → Prop
  | refl {p : Nat} : p ≠ h → ReachesWithout g h p p
  | step {b c p : Nat} : b ≠ h → g.Edge b c → ReachesWithout g h c p → ReachesWithout g h b p

/-- The loop of a header: the header itself, and the reachable blocks that reach the source of a back edge without
coming through the header. -/
def InLoop (g : Cfg) (h b : Nat) : Prop :=
  (∃ p, g.BackEdge p h) ∧ (b = h ∨ g.Reachable b ∧ ∃ p, g.BackEdge p h ∧ g.ReachesWithout h b p)

namespace ReachesWithout

theorem tail (hpath : g.ReachesWithout h b c) (hedge : g.Edge c p) (hne : p ≠ h) : g.ReachesWithout h b p := by
  induction hpath with
  | refl hb => exact .step hb hedge (.refl hne)
  | step hb hfirst _ ih => exact .step hb hfirst (ih hedge)

/-- A path that avoids a block goes on to avoid it. -/
theorem avoids (hpath : g.ReachesWithout h b p) (hb : g.Avoids h b) : g.Avoids h p := by
  induction hpath with
  | refl _ => exact hb
  | @step b c p _ hedge hrest ih =>
    refine ih (.step hb hedge ?_)
    cases hrest with
    | refl hc => exact hc
    | step hc _ _ => exact hc

/-- The last part of a path to a block that `h` strictly dominates leads from `h` to the block. -/
theorem of_dominates (hb : g.Reachable b) (hdom : g.Dominates h b) (hne : b ≠ h) :
    ∃ y, g.Edge h y ∧ g.ReachesWithout h y b := by
  have hcases : ∀ c, g.Reachable c → g.Avoids h c ∨ c = h ∨ ∃ y, g.Edge h y ∧ g.ReachesWithout h y c := by
    intro c hc
    induction hc with
    | refl =>
      by_cases he : g.entry = h
      · exact .inr (.inl he)
      · exact .inl (.entry he)
    | @tail b c _ hedge ih =>
      by_cases hc : c = h
      · exact .inr (.inl hc)
      · rcases ih with havoid | rfl | ⟨y, hy, hpath⟩
        · exact .inl (.step havoid hedge hc)
        · exact .inr (.inr ⟨c, hedge, .refl hc⟩)
        · exact .inr (.inr ⟨y, hy, hpath.tail hedge hc⟩)
  exact ((hcases b hb).resolve_left hdom).resolve_left hne

end ReachesWithout

namespace InLoop

theorem header (hp : g.BackEdge p h) : g.InLoop h h := ⟨⟨p, hp⟩, .inl rfl⟩

theorem source (hp : g.BackEdge p h) : g.InLoop h p := by
  refine ⟨⟨p, hp⟩, ?_⟩
  by_cases hne : p = h
  · exact .inl hne
  · exact .inr ⟨hp.1, p, hp, .refl hne⟩

theorem reachable (hb : g.InLoop h b) : g.Reachable b := by
  obtain ⟨⟨p, hreach, hedge, -⟩, rfl | ⟨hb, -⟩⟩ := hb
  · exact hreach.tail hedge
  · exact hb

/-- The header dominates its loop. -/
theorem dominates (hb : g.InLoop h b) : g.Dominates h b := by
  obtain ⟨-, rfl | ⟨-, p, hp, hpath⟩⟩ := hb
  · exact .refl g b
  · exact fun havoid => hp.2.2 (hpath.avoids havoid)

/-- What leads to a block of the loop other than the header is in the loop. -/
theorem pred (hc : g.InLoop h c) (hne : c ≠ h) (hedge : g.Edge b c) (hb : g.Reachable b) : g.InLoop h b := by
  obtain ⟨hheader, hc⟩ := hc
  obtain ⟨-, p, hp, hpath⟩ := hc.resolve_left hne
  refine ⟨hheader, ?_⟩
  by_cases hbh : b = h
  · exact .inl hbh
  · exact .inr ⟨hb, p, hp, .step hbh hedge hpath⟩

/-- The loop is what the sources of the back edges and the way back from them, up to the header, come through. -/
theorem closed {P : Nat → Prop} (hsource : ∀ p, g.BackEdge p h → P p)
    (hstep : ∀ b c, P c → g.InLoop h c → c ≠ h → g.Edge b c → g.Reachable b → P b) (hb : g.InLoop h b) : P b := by
  have hpath : ∀ {b p : Nat}, g.ReachesWithout h b p → g.BackEdge p h → g.Reachable b → P b ∧ g.InLoop h b ∧ b ≠ h := by
    intro b p hpath hp hb
    induction hpath with
    | refl hne => exact ⟨hsource _ hp, .source hp, hne⟩
    | @step b c p hne hedge hrest ih =>
      obtain ⟨hPc, hc, hcne⟩ := ih hp (hb.tail hedge)
      exact ⟨hstep b c hPc hc hcne hedge hb, hc.pred hcne hedge hb, hne⟩
  obtain ⟨⟨p, hp⟩, rfl | ⟨hreach, p, hp, hb⟩⟩ := hb
  · -- The way back from a source comes to the header, which dominates the source.
    by_cases hne : p = b
    · exact hne ▸ hsource p hp
    · obtain ⟨y, hedge, hy⟩ := ReachesWithout.of_dominates hp.1 hp.2.2 hne
      have hreach : g.Reachable b := (InLoop.header hp).reachable
      obtain ⟨hPy, hyin, hyne⟩ := hpath hy hp (hreach.tail hedge)
      exact hstep b y hPy hyin hyne hedge hreach
  · exact (hpath hb hp hreach).1

/-- Of two loops that share a block, the one with the dominating header holds the other header. -/
theorem header_in (hb : g.InLoop h b) (hb' : g.InLoop h' b) (hdom : g.Dominates h h') : g.InLoop h h' := by
  by_cases heq : h = h'
  · subst heq
    obtain ⟨⟨p, hp⟩, -⟩ := hb
    exact .header hp
  · have hreach : g.Reachable h' := by
      obtain ⟨⟨p, hp⟩, -⟩ := hb'
      exact (InLoop.header hp).reachable
    have havoid : g.Avoids h' h := by
      by_contra hnot
      obtain ⟨⟨p, hp⟩, -⟩ := hb
      exact heq (hdom.antisymm hnot (InLoop.header hp).reachable)
    -- Between the other header and the block no path comes through `h`, which would avoid the other header.
    have hpath : ∀ {x : Nat}, g.ReachesWithout h' x b → g.Reachable x → g.InLoop h x ∧ x ≠ h := by
      intro x hx hxreach
      have hne : x ≠ h := by
        rintro rfl
        exact hb'.dominates (hx.avoids havoid)
      refine ⟨?_, hne⟩
      clear hne
      induction hx with
      | refl _ => exact hb
      | @step x c b _ hedge hrest ih =>
        have hc := ih hb hb' (hxreach.tail hedge)
        refine hc.pred ?_ hedge hxreach
        rintro rfl
        exact hb'.dominates (hrest.avoids havoid)
    by_cases hbh : b = h'
    · exact hbh ▸ hb
    · obtain ⟨y, hedge, hy⟩ := ReachesWithout.of_dominates hb.reachable hb'.dominates hbh
      obtain ⟨hyin, hyne⟩ := hpath hy (hreach.tail hedge)
      exact hyin.pred hyne hedge hreach

theorem trans (hh : g.InLoop h h') (hb : g.InLoop h' b) : g.InLoop h b := by
  by_cases heq : h' = h
  · exact heq ▸ hb
  · refine closed (fun p hp => hh.pred heq hp.2.1 hp.1) (fun b c hPc hc hne hedge hb => hPc.pred ?_ hedge hb) hb
    rintro rfl
    exact heq (hc.dominates.antisymm hh.dominates hh.reachable)

end InLoop

end Cfg

namespace LoopForest

/-! ## The loop at the top -/

/-- Parents have larger numbers than their children. -/
def Ascending (parents : Array (Option Nat)) : Prop :=
  ∀ i p, parents[i]?.join = some p → i < p ∧ p < parents.size

variable {i : Nat}

section Outermost

variable {parents : Array (Option Nat)} (hasc : Ascending parents)

include hasc

variable {R : Nat → Nat → Prop}

/-- The outermost loop has no parent, and what holds along parents holds up to it. -/
theorem outermost_spec (hrefl : ∀ i, R i i) (hstep : ∀ i p q, parents[i]?.join = some p → R p q → R i q) (i : Nat) :
    parents[outermost parents i]?.join = none ∧ R i (outermost parents i) ∧
      (i < parents.size → outermost parents i < parents.size) := by
  fun_induction outermost parents i with
  | case1 i p hp hlt ih =>
    exact ⟨ih.1, hstep i p _ hp ih.2.1, fun _ => ih.2.2 hlt.2⟩
  | case2 i p hp hlt => exact absurd (hasc i p hp) hlt
  | case3 i hnone => exact ⟨hnone, hrefl i, fun hi => hi⟩

omit hasc in
/-- A loop without a parent is its own outermost loop. -/
theorem outermost_of_none (h : parents[i]?.join = none) : outermost parents i = i := by
  unfold outermost
  rw [h]

/-- A loop below another one is below a child of it. -/
theorem exists_child_of_outermost (hrefl : ∀ i, R i i) (hstep : ∀ i p q, parents[i]?.join = some p → R p q → R i q)
    {k : Nat} (h : outermost parents i = k) (hne : i ≠ k) : ∃ q, parents[q]?.join = some k ∧ R i q := by
  fun_induction outermost parents i with
  | case1 i p hp hlt ih =>
    by_cases hpk : p = k
    · exact ⟨i, hpk ▸ hp, hrefl i⟩
    · obtain ⟨q, hq, hR⟩ := ih h hpk
      exact ⟨q, hq, hstep i p q hp hR⟩
  | case2 i p hp hlt => exact absurd (hasc i p hp) hlt
  | case3 i hnone => exact absurd h hne

/-- When an outermost loop gets a parent, the loops below it do. -/
theorem outermost_set {q k : Nat} (hq : parents[q]?.join = none) (hk : parents[k]?.join = none) (hlt : q < k)
    (hsize : k < parents.size) (i : Nat) : outermost (parents.set q (some k) (by omega)) i =
      if outermost parents i = q then k else outermost parents i := by
  have hget : ∀ j, (parents.set q (some k) (by omega))[j]?.join = if j = q then some k else parents[j]?.join := by
    intro j
    rw [Array.getElem?_set]
    by_cases hj : j = q
    · rw [if_pos hj.symm, if_pos hj]
      rfl
    · rw [if_neg (Ne.symm hj), if_neg hj]
  have htop : outermost (parents.set q (some k) (by omega)) k = k :=
    outermost_of_none (by rw [hget, if_neg (by omega)]; exact hk)
  fun_induction outermost parents i with
  | case1 i p hp hlt' ih =>
    have hne : i ≠ q := by
      rintro rfl
      rw [hq] at hp
      cases hp
    rw [outermost, hget, if_neg hne, hp]
    dsimp only
    rw [dif_pos (by rw [Array.size_set]; exact hlt')]
    exact ih
  | case2 i p hp hlt' => exact absurd (hasc i p hp) hlt'
  | case3 i hnone =>
    by_cases hiq : i = q
    · subst hiq
      rw [if_pos rfl, outermost, hget, if_pos rfl]
      dsimp only
      rw [dif_pos (by rw [Array.size_set]; exact ⟨hlt, hsize⟩)]
      exact htop
    · rw [if_neg hiq]
      exact outermost_of_none (by rw [hget, if_neg hiq]; exact hnone)

end Outermost

/-! ## Growing loops -/

variable {g : Cfg} {t : DominatorTree}

/-- The header of a loop that was found. -/
def Discovery.header (d : Discovery) (i : Nat) : Nat := d.headers.getD i 0

/-- What is known of loops at any time, where those with a number below `k` are complete. -/
structure Linked (g : Cfg) (d : Discovery) (k : Nat) : Prop where
  size : d.parents.size = d.headers.size
  capacity : d.innermost.size = g.capacity
  header : ∀ i, i < d.headers.size → ∃ p, g.BackEdge p (d.header i)
  /-- Inner loops are found first. -/
  order : ∀ i j, i < j → j < d.headers.size → ¬ g.Dominates (d.header i) (d.header j)
  parent : ∀ i p, d.parents[i]?.join = some p → i < p ∧ p < d.headers.size ∧ g.InLoop (d.header p) (d.header i)
  inner : ∀ b i, d.innermost[b]?.join = some i → i < d.headers.size ∧ g.InLoop (d.header i) b
  innermost_of : ∀ b j, j < k → g.InLoop (d.header j) b → ∃ i, i ≤ j ∧ d.innermost[b]?.join = some i
  parent_of : ∀ i j, i < j → j < k → g.InLoop (d.header j) (d.header i) → ∃ p, p ≤ j ∧ d.parents[i]?.join = some p

namespace Linked

variable {d : Discovery} {k : Nat} (h : Linked g d k)

include h

theorem ascending : Ascending d.parents := fun i p hp => ⟨(h.parent i p hp).1, h.size ▸ (h.parent i p hp).2.1⟩

/-- Loops that share a block are nested, the one with the larger number around the other. -/
theorem nested {j b : Nat} (hlt : i < j) (hj : j < d.headers.size) (hi : g.InLoop (d.header i) b)
    (hb : g.InLoop (d.header j) b) : g.InLoop (d.header j) (d.header i) := by
  refine hb.header_in hi ?_
  exact (hi.dominates.total hb.dominates hb.reachable).resolve_left (h.order i j hlt hj)

/-- A loop lies within its outermost loop, which has no parent. -/
theorem outermost_in (hi : i < d.headers.size) :
    d.parents[outermost d.parents i]?.join = none ∧ outermost d.parents i < d.headers.size ∧
      i ≤ outermost d.parents i ∧ ∀ b, g.InLoop (d.header i) b → g.InLoop (d.header (outermost d.parents i)) b := by
  obtain ⟨hnone, ⟨hle, hin⟩, hlt⟩ := outermost_spec h.ascending
    (R := fun i j => i ≤ j ∧ ∀ b, g.InLoop (d.header i) b → g.InLoop (d.header j) b)
    (fun i => ⟨le_rfl, fun _ hb => hb⟩) (fun i p q hp hR =>
      ⟨((h.parent i p hp).1.le).trans hR.1, fun b hb => hR.2 b ((h.parent i p hp).2.2.trans hb)⟩) i
  rw [h.size] at hlt
  exact ⟨hnone, hlt hi, hle, hin⟩

end Linked

/-- A block belongs to the loop that grows, directly or in a loop that was adopted. -/
def Covered (d : Discovery) (k b : Nat) : Prop :=
  ∃ i, d.innermost[b]?.join = some i ∧ outermost d.parents i = k

/-- What holds while loop `k`, the last one, grows. -/
structure Growing (g : Cfg) (d : Discovery) (k : Nat) (pending : List Nat) : Prop extends Linked g d k where
  last : d.headers.size = k + 1
  top : d.parents[k]?.join = none
  pending_in : ∀ b ∈ pending, g.InLoop (d.header k) b
  sources : ∀ p, g.BackEdge p (d.header k) → Covered d k p ∨ p ∈ pending
  direct : ∀ b p, d.innermost[b]?.join = some k → b ≠ d.header k → g.Reachable p → g.Edge p b →
    Covered d k p ∨ p ∈ pending
  adopted : ∀ q p, d.parents[q]?.join = some k → g.Reachable p → g.Edge p (d.header q) → Covered d k p ∨ p ∈ pending

namespace Growing

variable {d : Discovery} {k block : Nat} {rest : List Nat}

/-- A pending block that is covered need not be looked at. -/
theorem skip (h : Growing g d k (block :: rest)) (hblock : Covered d k block) : Growing g d k rest := by
  have hdrop : ∀ {p : Nat}, Covered d k p ∨ p ∈ block :: rest → Covered d k p ∨ p ∈ rest := by
    rintro p (hp | hp)
    · exact .inl hp
    · rcases List.mem_cons.1 hp with rfl | hp
      · exact .inl hblock
      · exact .inr hp
  exact ⟨h.toLinked, h.last, h.top, fun b hb => h.pending_in b (List.mem_cons_of_mem _ hb), fun p hp => hdrop (h.sources p hp),
    fun b p hb hne hp hedge => hdrop (h.direct b p hb hne hp hedge), fun q p hq hp hedge => hdrop (h.adopted q p hq hp hedge)⟩

variable {more : List Nat}

section

variable (h : Growing g d k (block :: rest)) (hc : g.Consistent) (ht : ∀ p, t.isReachable p = true ↔ g.Reachable p)

include h hc ht

/-- A block without a loop joins the loop that grows. -/
theorem mark (hb : block < d.innermost.size) (hnone : d.innermost[block] = none)
    (hmore : ∀ p, p ∈ more ↔ block ≠ d.header k ∧ p ∈ g.preds block ∧ t.isReachable p = true) :
    Growing g { d with innermost := d.innermost.set block (some k) } k (more ++ rest) := by
  have hin := h.pending_in block List.mem_cons_self
  have hget : ∀ b, (d.innermost.set block (some k))[b]?.join =
      if b = block then some k else d.innermost[b]?.join := by
    intro b
    rw [Array.getElem?_set]
    by_cases hbb : b = block
    · rw [if_pos hbb.symm, if_pos hbb]
      rfl
    · rw [if_neg (Ne.symm hbb), if_neg hbb]
  have hfree : d.innermost[block]?.join = none := by
    rw [Array.getElem?_eq_getElem hb, hnone]
    rfl
  have hkeep : ∀ {b i : Nat}, d.innermost[b]?.join = some i → (d.innermost.set block (some k))[b]?.join = some i := by
    intro b i hbi
    rw [hget, if_neg ?_]
    · exact hbi
    · rintro rfl
      rw [hfree] at hbi
      cases hbi
  have hcover : ∀ {p : Nat}, Covered d k p ∨ p ∈ block :: rest →
      Covered { d with innermost := d.innermost.set block (some k) } k p ∨ p ∈ more ++ rest := by
    rintro p (⟨i, hi, hout⟩ | hp)
    · exact .inl ⟨i, hkeep hi, hout⟩
    · rcases List.mem_cons.1 hp with rfl | hp
      · exact .inl ⟨k, by rw [hget, if_pos rfl], outermost_of_none h.top⟩
      · exact .inr (List.mem_append_right _ hp)
  refine ⟨⟨h.size, by rw [Array.size_set]; exact h.capacity, h.header, h.order, h.parent, ?_, ?_, h.parent_of⟩, h.last,
    h.top, ?_, fun p hp => hcover (h.sources p hp), ?_, fun q p hq hp hedge => hcover (h.adopted q p hq hp hedge)⟩
  · intro b i hbi
    rw [hget] at hbi
    split at hbi
    · rename_i hbb
      cases hbi
      have hlast := h.last
      exact ⟨by dsimp only; omega, hbb ▸ hin⟩
    · exact h.inner b i hbi
  · intro b j hj hb'
    obtain ⟨i, hle, hi⟩ := h.innermost_of b j hj hb'
    exact ⟨i, hle, hkeep hi⟩
  · intro b hb'
    rcases List.mem_append.1 hb' with hb' | hb'
    · obtain ⟨hne, hp, hreach⟩ := (hmore b).1 hb'
      have hreach := (ht b).1 hreach
      exact hin.pred hne ((hc b block hreach hin.reachable).1 hp) hreach
    · exact h.pending_in b (List.mem_cons_of_mem _ hb')
  · intro b p hbk hne hp hedge
    rw [hget] at hbk
    split at hbk
    · subst b
      exact .inr (List.mem_append_left _ ((hmore p).2 ⟨hne, (hc p block hp hin.reachable).2 hedge, (ht p).2 hp⟩))
    · exact hcover (h.direct b p hbk hne hp hedge)

/-- An outermost loop that shares a block with the loop that grows is adopted. -/
theorem adopt {inner outer : Nat} (hinner : d.innermost[block]?.join = some inner)
    (houter : outermost d.parents inner = outer) (hne : outer ≠ k) (hlt : outer < d.parents.size)
    (hmore : ∀ p, p ∈ more ↔ p ∈ g.preds (d.header outer) ∧ t.isReachable p = true ∧ d.innermost[p]?.join ≠ some outer) :
    Growing g { d with parents := d.parents.set outer (some k) } k (more ++ rest) := by
  have hin := h.pending_in block List.mem_cons_self
  obtain ⟨hinlt, hinb⟩ := h.inner block inner hinner
  obtain ⟨hnone, houtlt, -, hsub⟩ := h.outermost_in hinlt
  rw [houter] at hnone houtlt hsub
  have hlast := h.last
  have hsize := h.size
  have hok : outer < k := by omega
  have hnest : g.InLoop (d.header k) (d.header outer) := h.nested hok (by omega) (hsub block hinb) hin
  have hhne : d.header outer ≠ d.header k := fun heq => h.order outer k hok (by omega) (heq ▸ .refl g _)
  have hget : ∀ j, (d.parents.set outer (some k))[j]?.join = if j = outer then some k else d.parents[j]?.join := by
    intro j
    rw [Array.getElem?_set]
    by_cases hj : j = outer
    · rw [if_pos hj.symm, if_pos hj]
      rfl
    · rw [if_neg (Ne.symm hj), if_neg hj]
  have hout := outermost_set h.ascending hnone h.top hok (by omega)
  have hcover : ∀ {p : Nat}, Covered d k p ∨ p ∈ block :: rest →
      Covered { d with parents := d.parents.set outer (some k) } k p ∨ p ∈ more ++ rest := by
    rintro p (⟨i, hi, hik⟩ | hp)
    · refine .inl ⟨i, hi, ?_⟩
      dsimp only
      rw [hout i, hik, if_neg (Ne.symm hne)]
    · rcases List.mem_cons.1 hp with rfl | hp
      · refine .inl ⟨inner, hinner, ?_⟩
        dsimp only
        rw [hout inner, houter, if_pos rfl]
      · exact .inr (List.mem_append_right _ hp)
  refine ⟨⟨by rw [Array.size_set]; exact h.size, h.capacity, h.header, h.order, ?_, h.inner, h.innermost_of, ?_⟩, h.last,
    ?_, ?_, fun p hp => hcover (h.sources p hp), fun b p hb hne hp hedge => hcover (h.direct b p hb hne hp hedge), ?_⟩
  · intro i p hp
    rw [hget] at hp
    split at hp
    · subst i
      cases hp
      exact ⟨hok, by dsimp only; omega, hnest⟩
    · exact h.parent i p hp
  · intro i j hij hj hb
    obtain ⟨p, hle, hp⟩ := h.parent_of i j hij hj hb
    refine ⟨p, hle, ?_⟩
    rw [hget, if_neg ?_]
    · exact hp
    · rintro rfl
      rw [hnone] at hp
      cases hp
  · rw [hget, if_neg (Ne.symm hne)]
    exact h.top
  · intro b hb
    rcases List.mem_append.1 hb with hb | hb
    · obtain ⟨hp, hreach, -⟩ := (hmore b).1 hb
      have hreach := (ht b).1 hreach
      exact hnest.pred hhne ((hc b _ hreach hnest.reachable).1 hp) hreach
    · exact h.pending_in b (List.mem_cons_of_mem _ hb)
  · intro q p hq hp hedge
    rw [hget] at hq
    split at hq
    · subst q
      by_cases hdirect : d.innermost[p]?.join = some outer
      · refine .inl ⟨outer, hdirect, ?_⟩
        dsimp only
        rw [hout outer, outermost_of_none hnone, if_pos rfl]
      · exact .inr (List.mem_append_left _
          ((hmore p).2 ⟨(hc p _ hp hnest.reachable).2 hedge, (ht p).2 hp, hdirect⟩))
    · exact hcover (h.adopted q p hq hp hedge)

end

/-- When nothing is pending, all blocks of the loop are covered. -/
theorem covers (h : Growing g d k []) {b : Nat} (hb : g.InLoop (d.header k) b) : Covered d k b := by
  have hdone : ∀ {p : Nat}, Covered d k p ∨ p ∈ ([] : List Nat) → Covered d k p := fun hp =>
    hp.resolve_right List.not_mem_nil
  have hlast := h.last
  refine hb.closed (fun p hp => hdone (h.sources p hp)) fun b c hcov hc hne hedge hb => ?_
  obtain ⟨i, hi, hik⟩ := hcov
  by_cases hki : i = k
  · exact hdone (h.direct c b (hki ▸ hi) hne hb hedge)
  · -- The block is in a loop that was adopted; its predecessor is there too, or leads to the header.
    obtain ⟨q, hq, hsub⟩ := exists_child_of_outermost h.ascending
      (R := fun i j => ∀ b, g.InLoop (d.header i) b → g.InLoop (d.header j) b) (fun _ _ hx => hx)
      (fun i p q hp hR x hx => hR x ((h.parent i p hp).2.2.trans hx)) hik hki
    have hcq := hsub c (h.inner c i hi).2
    have hqk := (h.parent q k hq).1
    by_cases hcne : c = d.header q
    · exact hdone (h.adopted q b hq hb (hcne ▸ hedge))
    · have hbq := hcq.pred hcne hedge hb
      obtain ⟨j, hjq, hj⟩ := h.innermost_of b q hqk hbq
      refine ⟨j, hj, ?_⟩
      obtain ⟨hjlt, hbj⟩ := h.inner b j hj
      obtain ⟨hnone, hrlt, -, hin⟩ := h.outermost_in hjlt
      generalize outermost d.parents j = r at hnone hrlt hin
      by_contra hrk
      have hbr := hin b hbj
      rcases Nat.lt_trichotomy r q with hrq | rfl | hqr
      · obtain ⟨p, -, hp⟩ := h.parent_of r q hrq hqk (h.nested hrq (by omega) hbr hbq)
        rw [hnone] at hp
        cases hp
      · rw [hnone] at hq
        cases hq
      · obtain ⟨p, hle, hp⟩ := h.parent_of q r hqr (by omega) (h.nested hqr hrlt hbq hbr)
        rw [hq] at hp
        cases hp
        omega

/-- When nothing is pending, the loop is complete. -/
theorem complete (h : Growing g d k []) : Linked g d (k + 1) := by
  have hlast := h.last
  refine ⟨h.size, h.capacity, h.header, h.order, h.parent, h.inner, ?_, ?_⟩
  · intro b j hj hb
    by_cases hjk : j = k
    · subst hjk
      obtain ⟨i, hi, -⟩ := h.covers hb
      have hlt := (h.inner b i hi).1
      exact ⟨i, by omega, hi⟩
    · exact h.innermost_of b j (by omega) hb
  · intro i j hij hj hb
    by_cases hjk : j = k
    · subst hjk
      -- The innermost loop around the header of a loop is that loop, so its outermost loop is another one.
      obtain ⟨i', hi', hout⟩ := h.covers hb
      obtain ⟨p, hp⟩ := h.header i (by omega)
      obtain ⟨m, hmi, hm⟩ := h.innermost_of (d.header i) i hij (.header hp)
      rw [hi'] at hm
      cases hm
      have hsame : i' = i := by
        by_contra hne
        exact h.order i' i (by omega) (by omega) (h.inner _ i' hi').2.dominates
      subst hsame
      cases hparent : d.parents[i']?.join with
      | none =>
        rw [outermost_of_none hparent] at hout
        omega
      | some p =>
        have hlt := (h.parent i' p hparent).2.1
        exact ⟨p, by omega, rfl⟩
    · exact h.parent_of i j hij (by omega) hb

end Growing

/-- Growing ends with a complete loop and leaves the headers alone. -/
theorem growing_grow (hc : g.Consistent) (ht : ∀ p, t.isReachable p = true ↔ g.Reachable p)
    (hcap : ∀ b, g.Reachable b → b < g.capacity) {k : Nat} {d : Discovery} {pending : List Nat}
    (h : Growing g d k pending) :
    Growing g (grow g t k d pending) k [] ∧ (grow g t k d pending).headers = d.headers := by
  fun_induction grow g t k d pending with
  | case1 d => exact ⟨h, rfl⟩
  | case2 d block rest hb hnone d' more ih =>
    have hpreds : more = if d.headers[k]? = some block then [] else (g.preds block).filter t.isReachable := by
      unfold more
      split <;> simp
    change Growing g (grow g t k d' ((if d.headers[k]? = some block then []
        else (g.preds block).filter t.isReachable).reverse ++ rest)) k [] ∧ _
    rw [← hpreds]
    refine ih (h.mark hc ht hb hnone fun p => ?_)
    rw [List.mem_reverse]
    have hlast := h.last
    have hheader : d.headers[k]? = some block ↔ block = d.header k := by
      rw [Discovery.header, Array.getD_eq_getD_getElem?, Array.getElem?_eq_getElem (by omega), Option.getD_some,
        Option.some.injEq]
      exact eq_comm
    by_cases hhead : d.headers[k]? = some block
    · rw [hpreds, if_pos hhead]
      exact ⟨fun hp => absurd hp List.not_mem_nil, fun hp => absurd (hheader.1 hhead) hp.1⟩
    · rw [hpreds, if_neg hhead, List.mem_filter]
      exact ⟨fun hp => ⟨fun heq => hhead (hheader.2 heq), hp⟩, fun hp => hp.2⟩
  | case3 d block rest hb inner hinner outer hk ih =>
    refine ih (h.skip ⟨inner, ?_, hk⟩)
    rw [Array.getElem?_eq_getElem hb, hinner]
    rfl
  | case4 d block rest hb inner hinner outer hk hlt hnone header more ih =>
    have hi : d.innermost[block]?.join = some inner := by
      rw [Array.getElem?_eq_getElem hb, hinner]
      rfl
    refine ih (h.adopt hc ht hi rfl hk hlt fun p => ?_)
    rw [List.mem_reverse, List.mem_filter, Bool.and_eq_true, bne_iff_ne]
    exact Iff.rfl
  | case5 d block rest hb inner hinner outer hk hlt hsome ih =>
    -- The outermost loop has no parent.
    have hi : d.innermost[block]?.join = some inner := by
      rw [Array.getElem?_eq_getElem hb, hinner]
      rfl
    obtain ⟨hnone, -⟩ := h.outermost_in (h.inner block inner hi).1
    rw [Array.getElem?_eq_getElem hlt] at hnone
    exact absurd hnone hsome
  | case6 d block rest hb inner hinner outer hk hlt ih =>
    have hi : d.innermost[block]?.join = some inner := by
      rw [Array.getElem?_eq_getElem hb, hinner]
      rfl
    obtain ⟨-, hout, -⟩ := h.outermost_in (h.inner block inner hi).1
    exact absurd (h.size ▸ hout) hlt
  | case7 d block rest hb ih =>
    exact absurd (hcap block (h.pending_in block List.mem_cons_self).reachable) (h.capacity ▸ hb)

/-- What is known after some blocks were visited as headers. -/
structure Found (g : Cfg) (d : Discovery) (visited : List Nat) : Prop where
  linked : Linked g d d.headers.size
  header : ∀ i, i < d.headers.size → d.header i ∈ visited
  found : ∀ h p, h ∈ visited → g.BackEdge p h → ∃ i, i < d.headers.size ∧ d.header i = h

/-- A new loop is opened: it has the greatest number, no parent and no block yet. -/
def Discovery.opened (d : Discovery) (h : Nat) : Discovery :=
  { d with headers := d.headers.push h, parents := d.parents.push none }

theorem Discovery.header_opened (d : Discovery) (h i : Nat) :
    (d.opened h).header i = if i = d.headers.size then h else d.header i := by
  unfold header opened
  rw [Array.getD_eq_getD_getElem?, Array.getElem?_push, Array.getD_eq_getD_getElem?]
  split <;> rfl

theorem Discovery.parents_opened (d : Discovery) (h i : Nat) : (d.opened h).parents[i]?.join = d.parents[i]?.join := by
  unfold opened
  dsimp only
  rw [Array.getElem?_push]
  split
  · rename_i hi
    rw [hi, Array.getElem?_eq_none le_rfl]
    rfl
  · rfl

/-- The loop of a new header grows from the sources of the back edges. -/
theorem Found.growing_opened {d : Discovery} {visited : List Nat} (hd : Found g d visited) {h p : Nat}
    (hp : g.BackEdge p h) (hlater : ∀ x ∈ visited, ¬ g.Dominates x h) {sources : List Nat}
    (hsources : ∀ p, p ∈ sources ↔ g.BackEdge p h) : Growing g (d.opened h) d.headers.size sources := by
  have hlinked := hd.linked
  have hsize : (d.opened h).headers.size = d.headers.size + 1 := Array.size_push _
  have hold : ∀ {i : Nat}, i < d.headers.size → (d.opened h).header i = d.header i := by
    intro i hi
    rw [d.header_opened, if_neg (by omega)]
  have hnew : (d.opened h).header d.headers.size = h := by rw [d.header_opened, if_pos rfl]
  have hnone : d.parents[d.headers.size]?.join = none := by
    rw [← hlinked.size, Array.getElem?_eq_none le_rfl]
    rfl
  have hinner : ∀ b : Nat, (d.opened h).innermost[b]?.join ≠ some d.headers.size := by
    intro b hb
    exact absurd (hlinked.inner b _ hb).1 (Nat.lt_irrefl _)
  have hchild : ∀ q : Nat, (d.opened h).parents[q]?.join ≠ some d.headers.size := by
    intro q hq
    rw [d.parents_opened] at hq
    exact absurd (hlinked.parent q _ hq).2.1 (Nat.lt_irrefl _)
  refine ⟨⟨?_, hlinked.capacity, fun i hi => ?_, fun i j hij hj => ?_, fun i q hq => ?_, fun b i hi => ?_,
    fun b j hj hb => ?_, fun i j hij hj hb => ?_⟩, hsize, ?_, fun b hb => ?_, fun p hp => ?_,
    fun b p hb => absurd hb (hinner b), fun q p hq => absurd hq (hchild q)⟩
  · rw [hsize, ← hlinked.size]
    exact Array.size_push _
  · by_cases hlast : i = d.headers.size
    · rw [hlast, hnew]
      exact ⟨p, hp⟩
    · rw [hold (by omega)]
      exact hlinked.header i (by omega)
  · rw [hold (by omega)]
    by_cases hlast : j = d.headers.size
    · rw [hlast, hnew]
      exact hlater _ (hd.header i (by omega))
    · rw [hold (by omega)]
      exact hlinked.order i j hij (by omega)
  · rw [d.parents_opened] at hq
    obtain ⟨hlt, hqlt, hin⟩ := hlinked.parent i q hq
    rw [hold hqlt, hold (by omega)]
    exact ⟨hlt, by omega, hin⟩
  · obtain ⟨hlt, hin⟩ := hlinked.inner b i hi
    rw [hold hlt]
    exact ⟨by omega, hin⟩
  · rw [hold hj] at hb
    exact hlinked.innermost_of b j hj hb
  · rw [hold hj, hold (by omega)] at hb
    obtain ⟨q, hle, hq⟩ := hlinked.parent_of i j hij hj hb
    exact ⟨q, hle, by rw [d.parents_opened]; exact hq⟩
  · rw [d.parents_opened]
    exact hnone
  · rw [hnew]
    exact .source ((hsources b).1 hb)
  · rw [hnew] at hp
    exact .inr ((hsources p).2 hp)

/-- Visiting a block as a header. -/
theorem Found.visitHeader (ht : DominatorTree.Exact g t) {d : Discovery} {visited : List Nat} {h : Nat}
    (hd : Found g d visited) (hh : g.Reachable h) (hlater : ∀ x ∈ visited, ¬ g.Dominates x h) :
    Found g (visitHeader g t d h) (visited ++ [h]) := by
  have hreach := ht.isReachable_iff
  obtain ⟨-, -, hmem, hcap, -⟩ := ht.order_spec
  have hsource : ∀ p, p ∈ (g.preds h).filter (fun p => t.isReachable p && t.dominates h p) ↔ g.BackEdge p h := by
    intro p
    rw [List.mem_filter, Bool.and_eq_true, hreach, DominatorTree.dominates_iff ht.parts ht.consistent]
    constructor
    · rintro ⟨hp, hpr, -, -, hhp⟩
      exact ⟨hpr, (ht.consistent p h hpr hh).1 hp, hhp⟩
    · rintro ⟨hpr, hedge, hhp⟩
      exact ⟨(ht.consistent p h hpr hh).2 hedge, hpr, hh, hpr, hhp⟩
  unfold LoopForest.visitHeader
  generalize (g.preds h).filter (fun p => t.isReachable p && t.dominates h p) = sources at hsource
  dsimp only
  split
  · rename_i hempty
    refine ⟨hd.linked, fun i hi => List.mem_append_left _ (hd.header i hi), fun h' p hh' hp => ?_⟩
    rcases List.mem_append.1 hh' with hh' | hh'
    · exact hd.found h' p hh' hp
    · rw [List.mem_singleton.1 hh', ← hsource, List.isEmpty_iff.1 hempty] at hp
      exact absurd hp List.not_mem_nil
  · rename_i hempty
    obtain ⟨p, hp⟩ := List.exists_mem_of_ne_nil _ (mt List.isEmpty_iff.2 hempty)
    have hpending : ∀ p, p ∈ sources.reverse ↔ g.BackEdge p h := fun p => List.mem_reverse.trans (hsource p)
    have hgrowing := hd.growing_opened ((hsource p).1 hp) hlater hpending
    obtain ⟨hend, hheaders⟩ := growing_grow ht.consistent hreach (fun b hb => hcap b ((hmem b).2 hb)) hgrowing
    change Found g (grow g t d.headers.size (d.opened h) sources.reverse) (visited ++ [h])
    generalize grow g t d.headers.size (d.opened h) sources.reverse = d' at hend hheaders
    have hheader : ∀ i, d'.header i = if i = d.headers.size then h else d.header i := by
      intro i
      rw [← d.header_opened, Discovery.header, hheaders]
      rfl
    have hlast := hend.last
    refine ⟨hlast ▸ hend.complete, fun i hi => ?_, fun h' p' hh' hp' => ?_⟩
    · rw [hheader]
      split
      · exact List.mem_append_right _ (List.mem_singleton_self h)
      · exact List.mem_append_left _ (hd.header i (by omega))
    · rcases List.mem_append.1 hh' with hh' | hh'
      · obtain ⟨i, hi, hih⟩ := hd.found h' p' hh' hp'
        exact ⟨i, by omega, by rw [hheader, if_neg (by omega)]; exact hih⟩
      · exact ⟨d.headers.size, by omega, by rw [hheader, if_pos rfl, List.mem_singleton.1 hh']⟩

/-- All loops are found, and all links between them. -/
theorem found_discover (ht : DominatorTree.Exact g t) : Found g (discover g t) t.postOrder := by
  obtain ⟨hmem, hnodup, hpairs⟩ := ht.postOrder_spec
  have hfold : ∀ (rest visited : List Nat) (d : Discovery), visited ++ rest = t.postOrder → Found g d visited →
      Found g (rest.foldl (visitHeader g t) d) t.postOrder := by
    intro rest
    induction rest with
    | nil =>
      intro visited d heq hd
      rw [List.append_nil] at heq
      exact heq ▸ hd
    | cons h rest ih =>
      intro visited d heq hd
      refine ih (visited ++ [h]) _ (by rw [List.append_assoc]; exact heq) (hd.visitHeader ht ?_ fun x hx hdom => ?_)
      · exact (hmem h).1 (heq ▸ List.mem_append_right _ List.mem_cons_self)
      · rw [← heq] at hnodup hpairs
        have hxh := (List.pairwise_append.1 hpairs).2.2 x hx h List.mem_cons_self hdom
        exact (List.nodup_append.1 hnodup).2.2 x hx h List.mem_cons_self hxh
  refine hfold t.postOrder [] _ rfl ⟨⟨rfl, Array.size_replicate, ?_, ?_, ?_, ?_, ?_, ?_⟩, ?_, ?_⟩
  · exact fun i hi => absurd hi (Nat.not_lt_zero i)
  · exact fun i j _ hj => absurd hj (Nat.not_lt_zero j)
  · exact fun i p hp => absurd hp (by simp)
  · intro b i hi
    rw [Array.getElem?_replicate] at hi
    split at hi <;> cases hi
  · exact fun b j hj => absurd hj (Nat.not_lt_zero j)
  · exact fun i j _ hj => absurd hj (Nat.not_lt_zero j)
  · exact fun i hi => absurd hi (Nat.not_lt_zero i)
  · exact fun h p hh => absurd hh List.not_mem_nil

end LoopForest

end SsaCompiler
