import SsaCompiler.Proofs.Graph.Convergence
import SsaCompiler.Proofs.Machine.PathLiveness
import Mathlib.Data.Finset.Card

/-!
# Liveness settles

A round of the liveness computation covers paths with one edge more than the round before. Paths need no more edges
than there are blocks, so after that many rounds the sets at the starts of blocks are exact; one more round makes the
sets at the ends exact, and the next one changes nothing. So the computation always ends within its limit.
-/

set_option autoImplicit false

namespace SsaCompiler

/-- Sets with the same members are equal. -/
theorem NatSet.eq_of_contains {s t : NatSet} (h : ∀ i, s.contains i = true ↔ t.contains i = true) : s = t := by
  have hmask : s.mask = t.mask := Nat.eq_of_testBit_eq fun i => Bool.eq_iff_iff.2 (h i)
  cases s
  cases t
  exact congrArg NatSet.mk hmask

namespace Liveness

variable {mf : MachineFunction} {effects : Array BlockEffect} {x b : Nat}

/-- From the start of a block, some path over at most that many edges reads a node before writing it. -/
def Near (mf : MachineFunction) (effects : Array BlockEffect) (x : Nat) : Nat → Nat → Prop
  | 0, b => (effects.getD b {}).uses.contains x = true
  | k + 1, b => (effects.getD b {}).uses.contains x = true ∨
      (effects.getD b {}).defs.contains x = false ∧ ∃ t ∈ mf.successors b, Near mf effects x k t

/-- What is near is near within more edges. -/
theorem Near.succ {k : Nat} : ∀ {b : Nat}, Near mf effects x k b → Near mf effects x (k + 1) b := by
  induction k with
  | zero => exact fun h => .inl h
  | succ k ih =>
    intro b h
    rcases h with huse | ⟨hdef, t, ht, hnear⟩
    · exact .inl huse
    · exact .inr ⟨hdef, t, ht, ih hnear⟩

variable {k : Nat} {s : Sets}

theorem Near.mono {j : Nat} (h : Near mf effects x k b) (hkj : k ≤ j) : Near mf effects x j b := by
  induction hkj with
  | refl => exact h
  | step _ ih => exact ih.succ

/-- Blocks that do not exist read nothing. -/
theorem Near.lt_size (heffects : effects.size = mf.blocks.size) (h : Near mf effects x k b) : b < mf.blocks.size := by
  by_contra hge
  have hnone : (effects.getD b {}).uses.contains x = false := by
    rw [Array.getD_eq_getD_getElem?, Array.getElem?_eq_none (by omega)]
    exact NatSet.contains_empty x
  have hsucc : ∀ t, t ∉ mf.successors b := by
    intro t ht
    obtain ⟨i, hi, -⟩ := MachineFunction.mem_successors.1 ht
    exact hge (MachineFunction.lt_size_of_instsOf (List.ne_nil_of_mem hi))
  cases k with
  | zero => exact Bool.noConfusion (hnone.symm.trans h)
  | succ k =>
    rcases h with huse | ⟨-, t, ht, -⟩
    · exact Bool.noConfusion (hnone.symm.trans huse)
    · exact hsucc t ht

/-- If one more edge brings nothing new, then no number of edges does. -/
theorem Near.of_stable (hstable : ∀ b, Near mf effects x (k + 1) b → Near mf effects x k b) (j : Nat) :
    ∀ b, Near mf effects x (k + j) b → Near mf effects x k b := by
  induction j with
  | zero => exact fun _ h => h
  | succ j ih =>
    intro b h
    refine hstable b ?_
    rcases h with huse | ⟨hdef, t, ht, hnear⟩
    · exact .inl huse
    · exact .inr ⟨hdef, t, ht, ih t hnear⟩

/-- Some number of edges, no more than there are blocks, brings all there is: as long as an edge brings a block,
there are at least as many blocks as edges. -/
theorem exists_stable (heffects : effects.size = mf.blocks.size) (x : Nat) :
    ∃ k ≤ mf.blocks.size, ∀ b, Near mf effects x (k + 1) b → Near mf effects x k b := by
  classical
  let reached := fun k => (Finset.range mf.blocks.size).filter (Near mf effects x k)
  have hmem : ∀ {k b}, b ∈ reached k ↔ Near mf effects x k b := by
    intro k b
    rw [Finset.mem_filter, Finset.mem_range]
    exact ⟨And.right, fun h => ⟨h.lt_size heffects, h⟩⟩
  by_contra hnone
  have hgrows : ∀ k ≤ mf.blocks.size + 1, k ≤ (reached k).card := by
    intro k hk
    induction k with
    | zero => exact Nat.zero_le _
    | succ k ih =>
      have hnew : ∃ b, Near mf effects x (k + 1) b ∧ ¬ Near mf effects x k b := by
        by_contra hold
        exact hnone ⟨k, by omega, fun b hb => not_not.1 fun hnot => hold ⟨b, hb, hnot⟩⟩
      obtain ⟨b, hb, hnot⟩ := hnew
      have hlt : (reached k).card < (reached (k + 1)).card := Finset.card_lt_card
        ⟨fun c hc => hmem.2 (hmem.1 hc).succ, fun hsub => hnot (hmem.1 (hsub (hmem.2 hb)))⟩
      have := ih (by omega)
      omega
  have hall := hgrows (mf.blocks.size + 1) (Nat.le_refl _)
  have hbound : (reached (mf.blocks.size + 1)).card ≤ mf.blocks.size :=
    (Finset.card_filter_le _ _).trans (Finset.card_range _).le
  omega

/-- Paths need no more edges than there are blocks. -/
theorem Near.within_size (heffects : effects.size = mf.blocks.size) (h : Near mf effects x k b) :
    Near mf effects x mf.blocks.size b := by
  obtain ⟨j, hj, hstable⟩ := exists_stable heffects x
  exact (Near.of_stable hstable k b (h.mono (by omega))).mono hj

/-! ## Rounds -/

/-- The sets at the starts of blocks hold what is near within some number of edges, with one edge more for the blocks
that are done, and nothing that is not near. -/
structure Halfway (mf : MachineFunction) (effects : Array BlockEffect) (k : Nat) (done : List Nat) (s : Sets) : Prop where
  size : s.liveIn.size = mf.blocks.size
  covers : ∀ b x, Near mf effects x k b → (s.liveIn.getD b .empty).contains x = true
  ahead : ∀ b ∈ done, ∀ x, Near mf effects x (k + 1) b → (s.liveIn.getD b .empty).contains x = true
  within : ∀ b x, (s.liveIn.getD b .empty).contains x = true → ∃ j, Near mf effects x j b

/-- The nodes that work on a block puts at its start. -/
def inOf (mf : MachineFunction) (effects : Array BlockEffect) (s : Sets) (b : Nat) : NatSet :=
  (effects.getD b {}).uses.union ((outOf mf s b).diff (effects.getD b {}).defs)

/-- The members of the set that work on a block puts at its start. -/
theorem contains_inOf : (inOf mf effects s b).contains x = true ↔
    (effects.getD b {}).uses.contains x = true ∨ (effects.getD b {}).defs.contains x = false ∧
      ∃ t ∈ mf.successors b, (s.liveIn.getD t .empty).contains x = true := by
  rw [inOf, NatSet.contains_union, NatSet.contains_diff, Bool.or_eq_true, Bool.and_eq_true, contains_outOf,
    Bool.not_eq_true']
  tauto

/-- Work on a settled block changes nothing. -/
theorem updateBlock_of_settled (h : Settled mf effects s b) : updateBlock mf effects s b = s := by
  rw [updateBlock_def]
  exact if_pos (by rw [Bool.and_eq_true, decide_eq_true_eq, decide_eq_true_eq]; exact ⟨h.out, h.inn⟩)

theorem updateBlock_of_not_settled (h : ¬ Settled mf effects s b) : updateBlock mf effects s b =
    { liveIn := s.liveIn.setIfInBounds b (inOf mf effects s b)
      liveOut := s.liveOut.setIfInBounds b (outOf mf s b)
      changed := true } := by
  rw [updateBlock_def]
  refine if_neg fun heq => h ?_
  rw [Bool.and_eq_true, decide_eq_true_eq, decide_eq_true_eq] at heq
  exact ⟨heq.1, heq.2⟩

/-- The sets at the starts after work on one block. -/
theorem liveIn_updateBlock (s : Sets) (hb : b < s.liveIn.size) (c : Nat) :
    (updateBlock mf effects s b).liveIn.getD c .empty =
      if c = b then inOf mf effects s b else s.liveIn.getD c .empty := by
  by_cases hsettled : Settled mf effects s b
  · rw [updateBlock_of_settled hsettled]
    split
    · exact ‹c = b› ▸ hsettled.inn.symm
    · rfl
  · simp only [updateBlock_of_not_settled hsettled, getD_setIfInBounds, hb, and_true, eq_comm]

/-- The sets at the ends after work on one block. -/
theorem liveOut_updateBlock (s : Sets) (hb : b < s.liveOut.size) (c : Nat) :
    (updateBlock mf effects s b).liveOut.getD c .empty =
      if c = b then outOf mf s b else s.liveOut.getD c .empty := by
  by_cases hsettled : Settled mf effects s b
  · rw [updateBlock_of_settled hsettled]
    split
    · exact ‹c = b› ▸ hsettled.out.symm
    · rfl
  · simp only [updateBlock_of_not_settled hsettled, getD_setIfInBounds, hb, and_true, eq_comm]

/-- Work on one block keeps the sizes. -/
theorem size_updateBlock (s : Sets) (b : Nat) : (updateBlock mf effects s b).liveIn.size = s.liveIn.size ∧
    (updateBlock mf effects s b).liveOut.size = s.liveOut.size := by
  by_cases hsettled : Settled mf effects s b
  · rw [updateBlock_of_settled hsettled]
    exact ⟨rfl, rfl⟩
  · rw [updateBlock_of_not_settled hsettled]
    exact ⟨Array.size_setIfInBounds, Array.size_setIfInBounds⟩

/-- Work on a block covers one edge more for it. -/
theorem Halfway.updateBlock {done : List Nat} (h : Halfway mf effects k done s) (hb : b < mf.blocks.size) :
    Halfway mf effects k (b :: done) (Liveness.updateBlock mf effects s b) := by
  have hin := @liveIn_updateBlock mf effects b s (h.size ▸ hb)
  have hahead : ∀ x, Near mf effects x (k + 1) b → (inOf mf effects s b).contains x = true := by
    rintro x (huse | ⟨hdef, t, ht, hnear⟩)
    · exact contains_inOf.2 (.inl huse)
    · exact contains_inOf.2 (.inr ⟨hdef, t, ht, h.covers t x hnear⟩)
  refine ⟨(size_updateBlock s b).1.trans h.size, fun c x hnear => ?_, fun c hc x hnear => ?_, fun c x hc => ?_⟩
  · rw [hin]
    split
    · rename_i hcb
      exact hahead x (hcb ▸ hnear.succ)
    · exact h.covers c x hnear
  · rw [hin]
    split
    · rename_i hcb
      exact hahead x (hcb ▸ hnear)
    · rename_i hcb
      exact h.ahead c ((List.mem_cons.1 hc).resolve_left hcb) x hnear
  · rw [hin] at hc
    split at hc
    · rename_i hcb
      subst hcb
      rcases contains_inOf.1 hc with huse | ⟨hdef, t, ht, hlive⟩
      · exact ⟨0, huse⟩
      · obtain ⟨j, hnear⟩ := h.within t x hlive
        exact ⟨j + 1, .inr ⟨hdef, t, ht, hnear⟩⟩
    · exact h.within c x hc

/-- A round over all blocks covers one edge more. -/
theorem Halfway.round (heffects : effects.size = mf.blocks.size) {order : List Nat}
    (horder : ∀ b ∈ order, b < mf.blocks.size) (hall : ∀ b < mf.blocks.size, b ∈ order)
    (h : Halfway mf effects k [] s) :
    Halfway mf effects (k + 1) [] (order.foldl (Liveness.updateBlock mf effects) s) := by
  have hfold : ∀ (rest done : List Nat) (s : Sets), (∀ b ∈ rest, b < mf.blocks.size) →
      Halfway mf effects k done s →
      Halfway mf effects k (rest.reverse ++ done) (rest.foldl (Liveness.updateBlock mf effects) s) := by
    intro rest
    induction rest with
    | nil => exact fun done s _ hs => hs
    | cons b rest ih =>
      intro done s hrest hs
      rw [List.reverse_cons, List.append_assoc]
      exact ih (b :: done) _ (fun c hc => hrest c (List.mem_cons_of_mem _ hc))
        (hs.updateBlock (hrest b List.mem_cons_self))
  obtain ⟨hsize, -, hahead, hwithin⟩ := hfold order [] s horder h
  refine ⟨hsize, fun b x hnear => ?_, fun b hb => absurd hb List.not_mem_nil, hwithin⟩
  refine hahead b ?_ x hnear
  rw [List.append_nil, List.mem_reverse]
  exact hall b (hnear.lt_size heffects)

/-- The sets at the starts of blocks hold exactly what some path reads. -/
structure Exact (mf : MachineFunction) (effects : Array BlockEffect) (s : Sets) : Prop where
  sizeIn : s.liveIn.size = mf.blocks.size
  sizeOut : s.liveOut.size = mf.blocks.size
  live : ∀ b x, (s.liveIn.getD b .empty).contains x = true ↔ ∃ k, Near mf effects x k b

/-- Where the sets are exact, work on a block leaves those at the starts alone. -/
theorem Exact.inOf_eq (h : Exact mf effects s) (b : Nat) : inOf mf effects s b = s.liveIn.getD b .empty := by
  refine NatSet.eq_of_contains fun x => ?_
  rw [contains_inOf, h.live]
  constructor
  · rintro (huse | ⟨hdef, t, ht, hlive⟩)
    · exact ⟨0, huse⟩
    · obtain ⟨k, hnear⟩ := (h.live t x).1 hlive
      exact ⟨k + 1, .inr ⟨hdef, t, ht, hnear⟩⟩
  · rintro ⟨k, hnear⟩
    rcases hnear.succ with huse | ⟨hdef, t, ht, hnear'⟩
    · exact .inl huse
    · exact .inr ⟨hdef, t, ht, (h.live t x).2 ⟨k, hnear'⟩⟩

/-- Work on a block makes its sets agree with those of its successors, and keeps the agreement of others. -/
theorem Exact.updateBlock (h : Exact mf effects s) (hb : b < mf.blocks.size) :
    Exact mf effects (Liveness.updateBlock mf effects s b) ∧
      Settled mf effects (Liveness.updateBlock mf effects s b) b ∧
      ∀ c, Settled mf effects s c → Settled mf effects (Liveness.updateBlock mf effects s b) c := by
  have hin : ∀ c, (Liveness.updateBlock mf effects s b).liveIn.getD c .empty = s.liveIn.getD c .empty := by
    intro c
    rw [liveIn_updateBlock s (h.sizeIn ▸ hb)]
    split
    · rename_i hcb
      rw [hcb]
      exact h.inOf_eq b
    · rfl
  have hout : ∀ c, outOf mf (Liveness.updateBlock mf effects s b) c = outOf mf s c := by
    intro c
    refine NatSet.eq_of_contains fun x => ?_
    rw [contains_outOf, contains_outOf]
    simp only [hin]
  have hliveOut := @liveOut_updateBlock mf effects b s (h.sizeOut ▸ hb)
  refine ⟨⟨(size_updateBlock s b).1.trans h.sizeIn, (size_updateBlock s b).2.trans h.sizeOut, fun c x => ?_⟩, ⟨?_, ?_⟩,
    fun c hc => ⟨?_, ?_⟩⟩
  · rw [hin]
    exact h.live c x
  · rw [hout, hliveOut, if_pos rfl]
  · rw [hout, hin]
    exact h.inOf_eq b
  · rw [hout, hliveOut]
    split
    · rename_i hcb
      rw [hcb]
    · exact hc.out
  · rw [hout, hin]
    exact hc.inn

/-- A round over exact sets settles them all. -/
theorem Exact.round {order : List Nat} : ∀ {s : Sets}, Exact mf effects s → (∀ b ∈ order, b < mf.blocks.size) →
      Exact mf effects (order.foldl (Liveness.updateBlock mf effects) s) ∧
      (∀ b ∈ order, Settled mf effects (order.foldl (Liveness.updateBlock mf effects) s) b) ∧
      ∀ c, Settled mf effects s c → Settled mf effects (order.foldl (Liveness.updateBlock mf effects) s) c := by
  induction order with
  | nil => exact fun h _ => ⟨h, fun b hb => absurd hb List.not_mem_nil, fun _ hc => hc⟩
  | cons b rest ih =>
    intro s h horder
    obtain ⟨hexact, hsettled, hkept⟩ := h.updateBlock (horder b List.mem_cons_self)
    obtain ⟨hexact', hrest, hkept'⟩ := ih hexact fun c hc => horder c (List.mem_cons_of_mem _ hc)
    refine ⟨hexact', fun c hc => ?_, fun c hc => hkept' c (hkept c hc)⟩
    rcases List.mem_cons.1 hc with rfl | hc
    · exact hkept' c hsettled
    · exact hrest c hc

/-- A round over settled sets changes nothing. -/
theorem foldl_of_settled {order : List Nat} (h : ∀ b ∈ order, Settled mf effects s b) :
    order.foldl (updateBlock mf effects) s = s := by
  induction order with
  | nil => rfl
  | cons b rest ih =>
    rw [List.foldl_cons, updateBlock_of_settled (h b List.mem_cons_self)]
    exact ih fun c hc => h c (List.mem_cons_of_mem _ hc)

section Settle

variable (heffects : effects.size = mf.blocks.size) {order : List Nat} (horder : ∀ b ∈ order, b < mf.blocks.size)
  (hall : ∀ b < mf.blocks.size, b ∈ order)

theorem exists_settle_of_settled (h : ∀ b ∈ order, Settled mf effects s b) (limit done : Nat) :
    ∃ result, settle mf effects order (limit + 1) done s = some result := by
  have hkept : ∀ b ∈ order, Settled mf effects { s with changed := false } b := fun b hb => ⟨(h b hb).out, (h b hb).inn⟩
  rw [settle, foldl_of_settled hkept]
  exact ⟨_, rfl⟩

include horder in
theorem exists_settle_of_exact (h : Exact mf effects s) (limit done : Nat) :
    ∃ result, settle mf effects order (limit + 2) done s = some result := by
  have hstart : Exact mf effects { s with changed := false } := ⟨h.sizeIn, h.sizeOut, h.live⟩
  obtain ⟨-, hsettled, -⟩ := hstart.round horder
  rw [settle]
  split
  · exact exists_settle_of_settled hsettled limit (done + 1)
  · exact ⟨_, rfl⟩

/-- A round keeps the sizes. -/
theorem size_foldl (order : List Nat) (s : Sets) :
    (order.foldl (updateBlock mf effects) s).liveOut.size = s.liveOut.size := by
  induction order generalizing s with
  | nil => rfl
  | cons b rest ih => exact (ih _).trans (size_updateBlock s b).2

include heffects horder hall in
/-- Sets that cover enough edges settle in as many rounds as edges are missing, and two more. -/
theorem exists_settle {limit : Nat} : ∀ {k done : Nat} {s : Sets}, Halfway mf effects k [] s →
    s.liveOut.size = mf.blocks.size → mf.blocks.size ≤ k + limit →
    ∃ result, settle mf effects order (limit + 2) done s = some result := by
  induction limit with
  | zero =>
    intro k done s h hsize hk
    refine exists_settle_of_exact horder ⟨h.size, hsize, fun b x => ⟨h.within b x, fun ⟨j, hnear⟩ => ?_⟩⟩ 0 done
    exact h.covers b x ((hnear.within_size heffects).mono hk)
  | succ limit ih =>
    intro k done s h hsize hk
    have hstart : Halfway mf effects k [] { s with changed := false } := ⟨h.size, h.covers, h.ahead, h.within⟩
    rw [settle]
    split
    · exact ih (hstart.round heffects horder hall) ((size_foldl order _).trans hsize) (by omega)
    · exact ⟨_, rfl⟩

end Settle

/-! ## All rounds -/

/-- What all blocks do to nodes. -/
def effectsOf (mf : MachineFunction) (budget : RegisterSet) : Array BlockEffect :=
  mf.blocks.map fun b => BlockEffect.ofInsts budget b.insts

/-- The blocks in the order of a round: the reachable ones in postorder, and the others behind them. -/
def workOrder (mf : MachineFunction) (r : ReversePostorder) : List Nat :=
  r.order.reverse ++ mf.blockIds.filter fun b => !r.isReachable b

/-- The sets before the first round. -/
def startSets (mf : MachineFunction) (budget : RegisterSet) : Sets :=
  { liveIn := (effectsOf mf budget).map (·.uses), liveOut := Array.replicate mf.blocks.size .empty, changed := false }

variable {r : ReversePostorder}

/-- The computation, once the order of the blocks is known. -/
theorem ofFunction_eq {budget : RegisterSet} (hr : ReversePostorder.ofCfg mf.cfg = .ok r) : ofFunction mf budget =
      match settle mf (effectsOf mf budget) (workOrder mf r) (mf.blocks.size + 3) 0 (startSets mf budget) with
      | none => Outcome.report (.nonConvergence mf.name .liveness (mf.blocks.size + 3))
      | some (s, rounds) =>
        .ok { effects := effectsOf mf budget, liveIn := s.liveIn, liveOut := s.liveOut, rounds } := by
  unfold ofFunction
  rw [hr]
  rfl

/-- A linked function can be explored. -/
theorem explorable_cfg (h : mf.Linked) : mf.cfg.Explorable := by
  intro b hb
  refine ⟨?_, _, rfl⟩
  induction hb with
  | refl => exact h.nonempty
  | tail _ hedge _ =>
    obtain ⟨succs, hsuccs, hc⟩ := hedge
    cases hsuccs
    exact h.lt_of_mem_successors hc

/-- A round works all blocks and nothing else. -/
theorem mem_workOrder (hg : mf.cfg.Explorable) (hr : ReversePostorder.ofCfg mf.cfg = .ok r) :
    b ∈ workOrder mf r ↔ b < mf.blocks.size := by
  unfold workOrder
  rw [List.mem_append, List.mem_reverse]
  constructor
  · rintro (hb | hb)
    · exact (hg b (((ReversePostorder.ofCfg_spec hr).2.2.1 b).1 hb)).1
    · exact List.mem_range.1 (List.mem_of_mem_filter hb)
  · intro hb
    cases hreach : r.isReachable b with
    | true => exact .inl (ReversePostorder.mem_order_of_isReachable hr hreach)
    | false => exact .inr (List.mem_filter.2 ⟨List.mem_range.2 hb, by rw [hreach]; rfl⟩)

/-- At the start, the sets hold what the blocks themselves read first. -/
theorem halfway_startSets (mf : MachineFunction) (budget : RegisterSet) :
    Halfway mf (effectsOf mf budget) 0 [] (startSets mf budget) := by
  have huses : ∀ b x, ((startSets mf budget).liveIn.getD b .empty).contains x = true ↔
      Near mf (effectsOf mf budget) x 0 b := by
    intro b x
    unfold startSets
    rw [Near, Array.getD_eq_getD_getElem?, Array.getD_eq_getD_getElem?, Array.getElem?_map]
    cases (effectsOf mf budget)[b]? <;> rfl
  refine ⟨?_, fun b x => (huses b x).2, fun b hb => absurd hb List.not_mem_nil, fun b x hx => ⟨0, (huses b x).1 hx⟩⟩
  exact (Array.size_map (f := BlockEffect.uses)).trans Array.size_map

/-- **Liveness settles.** The liveness of a linked function is always found. -/
theorem ofFunction_total (mf : MachineFunction) (budget : RegisterSet) (h : mf.Linked) :
    ∃ l, ofFunction mf budget = .ok l := by
  have hg := explorable_cfg h
  obtain ⟨r, hr⟩ := ReversePostorder.ofCfg_total hg
  obtain ⟨⟨s, rounds⟩, hsettle⟩ := @exists_settle mf (effectsOf mf budget) Array.size_map (workOrder mf r)
    (fun _ hb => (mem_workOrder hg hr).1 hb) (fun _ hb => (mem_workOrder hg hr).2 hb) (mf.blocks.size + 1) 0 0 _
    (halfway_startSets mf budget) Array.size_replicate (by omega)
  rw [ofFunction_eq hr, hsettle]
  exact ⟨_, rfl⟩

end Liveness

end SsaCompiler
