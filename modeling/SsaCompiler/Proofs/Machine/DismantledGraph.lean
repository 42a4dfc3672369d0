import SsaCompiler.Proofs.Machine.ConservativeMerging
import Mathlib.Logic.Relation

/-!
# The whole graph is taken apart

The colouring machine steps from its start to a state in which nothing is left to do. On the way the degrees of the
nodes that are in the graph count their neighbours there. At the end every virtual node is merged, or stands on the
stack once.

Merging leaves links from node to node. Every node has at most one, and following them ends, at the node that stands
for it; so no links lead in a circle. Neighbours never come to stand under one node.
-/

set_option autoImplicit false

namespace SsaCompiler

namespace Coloring

variable {c c' : Coloring}

/-- One step of the machine. -/
def Steps (c c' : Coloring) : Prop := c.step? = some c'

/-- A merged node is linked to the node that it was merged into. -/
def Link (c : Coloring) (n m : Nat) : Prop := c.merged.contains n = true ∧ m = c.mergedInto.getD n n

/-- A run steps from state to state. -/
theorem steps_runWithin (limit : Nat) (c : Coloring) : Relation.ReflTransGen Steps c (runWithin limit c) := by
  induction limit generalizing c with
  | zero => exact .refl
  | succ limit ih =>
    rw [runWithin]
    split
    · rename_i next hs
      exact .head hs (ih next)
    · exact .refl

/-- The whole run steps from state to state. -/
theorem steps_run (c : Coloring) : Relation.ReflTransGen Steps c c.run := steps_runWithin _ c

/-- What is sound and measured is so in all later states, which have the same nodes. -/
theorem Sound.measured_of_steps (hsteps : Relation.ReflTransGen Steps c c') (h : c.Sound) (hm : c.Measured []) :
    c'.Sound ∧ c'.Measured [] ∧ c'.degree.size = c.degree.size := by
  induction hsteps with
  | refl => exact ⟨h, hm, rfl⟩
  | tail _ hs ih =>
    obtain ⟨hsound, hmeasured, hsize⟩ := ih
    obtain ⟨hnext, hgrows⟩ := sound_of_step hsound hs
    exact ⟨hnext, hsound.measured_of_step hmeasured hs, hgrows.size.trans hsize⟩

/-- Links lead from a node to the one that is found within any number of them. -/
theorem links_aliasWithin (limit n : Nat) : Relation.ReflTransGen c.Link n (c.aliasWithin limit n) := by
  induction limit generalizing n with
  | zero => exact .refl
  | succ limit ih =>
    rw [aliasWithin]
    split
    · rename_i hn
      exact .head ⟨hn, rfl⟩ (ih _)
    · exact .refl

/-- All links behind a node on a circle are on the circle. -/
theorem Link.circle {n m : Nat} (hn : Relation.TransGen c.Link n n) (hnm : Relation.ReflTransGen c.Link n m) :
    Relation.TransGen c.Link m m := by
  induction hnm with
  | refl => exact hn
  | @tail m k _ hmk ih =>
    -- A node has one link only, so the circle through it goes on to the next node.
    obtain ⟨k', hmk', hback⟩ := Relation.TransGen.head'_iff.1 ih
    obtain rfl : k' = k := hmk'.2.trans hmk.2.symm
    exact .tail' hback hmk

/-- No links lead in a circle. -/
theorem Classes.not_circle (h : c.Classes) (n : Nat) : ¬ Relation.TransGen c.Link n n := by
  intro hn
  have hend := Link.circle hn (links_aliasWithin c.mergedInto.size n)
  obtain ⟨m, hlink, -⟩ := Relation.TransGen.head'_iff.1 hend
  exact Bool.noConfusion ((h.unmerged_aliasOf n).symm.trans hlink.1)

/-- A known virtual node that is not free is merged or on the stack, and not both. -/
theorem Classes.merged_or_stacked (h : c.Classes) {n : Nat} (hvirtual : Node.firstVirtual ≤ n) (hn : n < c.degree.size)
    (hfree : ¬ c.Free n) : (c.merged.contains n = true ∧ n ∉ c.stack) ∨
      (c.merged.contains n = false ∧ c.stack.count n = 1) := by
  cases hmerged : c.merged.contains n with
  | true =>
    refine .inl ⟨rfl, fun hstack => ?_⟩
    obtain ⟨-, -, hunmerged⟩ := h.stacked_ok n ((h.mem_stack n).1 hstack)
    exact Bool.noConfusion (hunmerged.symm.trans hmerged)
  | false =>
    refine .inr ⟨rfl, List.count_eq_one_of_mem h.nodup ((h.mem_stack n).2 ?_)⟩
    by_contra htaken
    exact hfree ⟨hvirtual, hn, hmerged, by simpa using htaken⟩

/-- A state in which the whole graph is taken apart. -/
structure TakenApart (c : Coloring) (nodes : Nat) : Prop where
  stopped : c.step? = none
  /-- A virtual node is merged and not on the stack, or not merged and on the stack once. -/
  shared : ∀ n, Node.firstVirtual ≤ n → n < nodes → (c.merged.contains n = true ∧ n ∉ c.stack) ∨
    (c.merged.contains n = false ∧ c.stack.count n = 1)
  acyclic : ∀ n, ¬ Relation.TransGen c.Link n n
  /-- The links of a node lead to the node that stands for it, which is not merged. -/
  settled : ∀ n, Relation.ReflTransGen c.Link n (c.aliasOf n) ∧ c.merged.contains (c.aliasOf n) = false
  apart : ∀ a b, c.graph.adjacent a b = true → c.aliasOf a ≠ c.aliasOf b

/-- **The colouring machine stops and loses no node.** It steps from its start to a state without a next step, in which
the whole graph is taken apart. In all states on the way, the degree of a virtual node that is neither merged nor taken
is the number of its neighbours that are neither. A budget always has a register. -/
theorem run_takes_apart (mf : MachineFunction) (budget : RegisterSet) (l : Liveness) (g : Interference)
    (hempty : budget.isEmpty = false) (hl : Liveness.ofFunction mf budget = .ok l)
    (hg : Interference.ofFunction mf budget l = .ok g) :
    Relation.ReflTransGen Steps (start mf budget g) (start mf budget g).run ∧
    (start mf budget g).run.TakenApart (Interference.nodeCount mf) ∧
    ∀ c, Relation.ReflTransGen Steps (start mf budget g) c → ∀ n, Node.firstVirtual ≤ n →
      n < Interference.nodeCount mf → c.merged.contains n = false → c.stacked.contains n = false →
      c.degreeOf n = (c.around n).card := by
  have hbudget := RegisterSet.size_pos hempty
  obtain ⟨hbuilt, -, -⟩ := Interference.ofFunction_spec (Liveness.sound_of_ofFunction hl) hg
  have hnodes : Node.firstVirtual ≤ Interference.nodeCount mf := Nat.le_add_right _ _
  obtain ⟨hstart, hcore⟩ := sound_start mf hbuilt hnodes hbudget
  have hsize : (start mf budget g).degree.size = Interference.nodeCount mf :=
    hcore.size.trans (Array.size_ofFn.trans hbuilt.size)
  have hsteps := steps_run (start mf budget g)
  obtain ⟨hrun, -, hsizerun⟩ := hstart.measured_of_steps hsteps (measured_start mf)
  obtain ⟨hcov, hstop⟩ := stopped_run mf hbuilt hnodes hbudget
  refine ⟨hsteps, ⟨hstop, fun n hvirtual hn => ?_, hrun.classes.not_circle, fun n => ?_, hrun.classes.apart⟩, ?_⟩
  · exact hrun.classes.merged_or_stacked hvirtual (hn.trans_eq (hsizerun.trans hsize).symm)
      (hcov.not_free_of_step hstop n)
  · exact ⟨links_aliasWithin _ n, hrun.classes.unmerged_aliasOf n⟩
  · intro c hc n hvirtual hn hmerged htaken
    obtain ⟨-, hmeasured, hsizec⟩ := hstart.measured_of_steps hc (measured_start mf)
    have hcount := hmeasured.free n ⟨hvirtual, hn.trans_eq (hsizec.trans hsize).symm, hmerged, htaken⟩
    rwa [if_neg List.not_mem_nil, Nat.add_zero] at hcount

/-- A function that uses a value and its copy beside another value. -/
def copiedSum : MachineFunction :=
  { name := "f", isMain := false, returnsValue := true, vregCount := 3
    blocks := #[{ label := "f_b0", loopDepth := 0, insts := [
      .move (.virtual 0) (.immediate 1), .move (.virtual 1) (.virtual 0), .move (.virtual 2) (.immediate 2),
      .binary .addu (.virtual 2) (.virtual 2) (.virtual 1), .binary .addu .v0 (.virtual 2) (.virtual 0),
      .ret true] }] }

/-- The graph of the function: the third register is a neighbour of the other two, which a copy joins. -/
def copiedSumGraph : Interference :=
  { neighbours := Array.replicate 32 .empty ++ #[⟨1 <<< 34⟩, ⟨1 <<< 34⟩, ⟨3 <<< 32⟩]
    loopWeight := Array.replicate 35 0, moves := #[(33, 32)] }

/-- With two registers the copy is merged, and the two nodes that are left come on the stack. -/
theorem run_takes_apart_copiedSum :
    ∃ l, Liveness.ofFunction copiedSum (.firstGeneral 2) = .ok l ∧
      Interference.ofFunction copiedSum (.firstGeneral 2) l = .ok copiedSumGraph ∧
      (start copiedSum (.firstGeneral 2) copiedSumGraph).run.TakenApart 35 ∧
      (start copiedSum (.firstGeneral 2) copiedSumGraph).run.stack = [34, 33] := by
  have hl : Liveness.ofFunction copiedSum (.firstGeneral 2) = .ok (AllocatedRun.oneBlock (7 <<< 32)) := by
    cbv
  have hg : Interference.ofFunction copiedSum (.firstGeneral 2) (AllocatedRun.oneBlock (7 <<< 32)) =
      .ok copiedSumGraph := by
    with_unfolding_all rfl
  exact ⟨_, hl, hg, (run_takes_apart copiedSum (.firstGeneral 2) _ _ (by decide) hl hg).2.1, by with_unfolding_all rfl⟩

end Coloring

end SsaCompiler
