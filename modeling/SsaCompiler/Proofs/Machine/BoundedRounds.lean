import SsaCompiler.Proofs.Machine.FinishedAllocation

/-!
# How many rounds allocation takes

A round that does not end allocation gives up registers, and the measure that falls is the number of registers that
may still be given up. Spill code mentions temporaries only, which no round gives up, and it takes the place of every
mention of the register that it is for. So over all rounds the registers that were given up are different registers of
the function as it was at the start, and there is at most one round more than there are of them.
-/

set_option autoImplicit false

namespace SsaCompiler

/-- The virtual registers that are no spill temporaries. -/
def MachineFunction.plainVregs (mf : MachineFunction) : List Nat :=
  (List.range mf.vregCount).filter fun v => !mf.spillTemps.contains v

namespace MachineEdit

open Edits

variable {mf mf' last : MachineFunction} {budget : RegisterSet} {lists : List (List Nat)}

/-- What may be given up is no spill temporary. -/
theorem Spillable.mem_plainVregs {n : Nat} (h : Spillable mf n) : n ∈ mf.plainVregs :=
  List.mem_filter.2 ⟨List.mem_range.2 h.counted, by simp [h.plain]⟩

/-- Some rounds gave up different registers of a function, each round at least one, and what may be given up next is
none of them. -/
structure GivenUp (mf last : MachineFunction) (lists : List (List Nat)) : Prop where
  allotted : last.Allotted
  nodup : lists.flatten.Nodup
  spillable : ∀ n ∈ lists.flatten, Spillable mf n
  length_le : lists.length ≤ lists.flatten.length
  next : ∀ n, Spillable last n → Spillable mf n ∧ n ∉ lists.flatten

/-- Before the first round nothing is given up. -/
theorem GivenUp.none (h : mf.Allotted) : GivenUp mf mf [] where
  allotted := h
  nodup := List.nodup_nil
  spillable _ hn := nomatch hn
  length_le := Nat.le_refl _
  next _ hn := ⟨hn, List.not_mem_nil⟩

/-- A round in front of others gives up registers that these do not find any more. -/
theorem GivenUp.round {mf₁ : MachineFunction} {vregs : List Nat} (hbudget : 0 < budget.size) (hmf : mf.Allotted)
    (hround : (colorRound budget).run mf = (.ok (.inr vregs), mf))
    (hspill : (spillAll vregs).run mf = (.ok (), mf₁)) (h : GivenUp mf₁ last lists) :
    GivenUp mf last (vregs :: lists) := by
  obtain ⟨hne, hnodup, hfound⟩ := spillable_of_colorRound hbudget hround
  obtain ⟨-, -, hgone⟩ := spillAll_spec hmf hspill
  refine ⟨h.allotted, ?_, fun n hn => ?_, ?_, fun n hn => ?_⟩
  · rw [List.flatten_cons]
    exact hnodup.append h.nodup fun n hv hlater => (hgone n (h.spillable n hlater)).2 hv
  · rcases List.mem_append.1 (List.flatten_cons ▸ hn) with hn | hn
    · exact hfound n hn
    · exact (hgone n (h.spillable n hn)).1
  · have hpos := List.length_pos_iff.2 hne
    have hlength := h.length_le
    rw [List.flatten_cons, List.length_append, List.length_cons]
    omega
  · obtain ⟨hn₁, hlater⟩ := h.next n hn
    obtain ⟨hn₀, hv⟩ := hgone n hn₁
    rw [List.flatten_cons, List.mem_append]
    exact ⟨hn₀, fun h => h.elim hv hlater⟩

/-- All rounds together give up different registers of the function that they started with. -/
theorem Spills.givenUp (hbudget : 0 < budget.size) (h : Spills budget lists mf last) :
    mf.Allotted → GivenUp mf last lists := by
  induction h with
  | none mf => exact .none
  | round hround hspill _ ih => exact fun hmf => .round hbudget hmf hround hspill (ih (spillAll_spec hmf hspill).1)

/-- There are at most as many rounds that give something up as there are registers to give up. -/
theorem GivenUp.length_le_plainVregs (h : GivenUp mf last lists) : lists.length ≤ mf.plainVregs.length :=
  calc lists.length
    _ ≤ lists.flatten.length := h.length_le
    _ ≤ mf.plainVregs.length :=
      (h.nodup.subperm fun n hn => (h.spillable n hn).mem_plainVregs).length_le

variable {a : Allocation} {maxRounds : Option Nat}

/-- An allocation with registers in its budget is some rounds that give registers up, and one more. -/
theorem spills_of_allocate (hempty : budget.isEmpty = false) (h : (allocate budget maxRounds).run mf = (.ok a, mf')) :
    ∃ lists last, Spills budget lists mf last ∧ a.rounds = lists.length + 1 ∧ a.spilled = lists.flatten.length := by
  unfold allocate at h
  have hrun := of_get_bind h
  rw [hempty] at hrun
  obtain ⟨lists, last, graph, idle, hrounds, hspilled, hlists, -⟩ := spills_of_allocateWithin hrun
  exact ⟨lists, last, hlists, by omega, by omega⟩

/-- Without registers there is no allocation. -/
theorem isEmpty_of_allocate (h : (allocate budget maxRounds).run mf = (.ok a, mf')) : budget.isEmpty = false := by
  cases hempty : budget.isEmpty with
  | false => rfl
  | true =>
    unfold allocate at h
    have hrun := of_get_bind h
    rw [hempty] at hrun
    cases hrun

/-- **Allocation ends within as many rounds as there are registers to give up, and one more.** The function is linked, and
the registers that its code mentions are counted. Without a cap on the rounds it succeeds within this bound, or reports that registers are wanting, or breaks off because a weight or the frame
leaves the word range. Every round that does not end it gives up registers that the code mentions, that were there
at the start, and that no round before it gave up. -/
theorem rounds_le_of_allocate (mf : MachineFunction) (budget : RegisterSet) (h : mf.Allotted) :
    ((∃ a mf', (allocate budget none).run mf = (.ok a, mf') ∧ a.rounds ≤ mf.plainVregs.length + 1 ∧
        ∃ lists last, Spills budget lists mf last ∧ a.rounds = lists.length + 1 ∧
          a.spilled = lists.flatten.length) ∨
      (∃ fault mf', (allocate budget none).run mf =
        (.error (.error (.registerAllocation mf.name fault)), mf')) ∨
      (∃ mf', (allocate budget none).run mf = (.error (.crash none), mf') ∧ RoundsOverflow budget mf)) ∧
    ∀ lists last vregs, budget.isEmpty = false → Spills budget lists mf last →
      (colorRound budget).run last = (.ok (.inr vregs), last) →
      vregs ≠ [] ∧ (lists.flatten ++ vregs).Nodup ∧
      ∀ v ∈ vregs, v ∈ mf.plainVregs ∧
        ∃ i ∈ last.placedInsts, Operand.virtual v ∈ i.sources ∨ Operand.virtual v ∈ i.defs := by
  constructor
  · have htotal := @allocate_total mf budget h
    unfold FailsOnly at htotal
    rcases hrun : (allocate budget none).run mf with ⟨r, mf'⟩
    rw [hrun] at htotal
    cases r with
    | ok a =>
      have hempty := isEmpty_of_allocate hrun
      obtain ⟨lists, last, hlists, hrounds, hspilled⟩ := spills_of_allocate hempty hrun
      have hbound := (hlists.givenUp (RegisterSet.size_pos hempty) h).length_le_plainVregs
      exact .inl ⟨a, mf', rfl, by omega, lists, last, hlists, hrounds, hspilled⟩
    | error e =>
      rcases htotal e rfl with ⟨fault, rfl⟩ | ⟨rfl, hover⟩
      · exact .inr (.inl ⟨fault, mf', rfl⟩)
      · exact .inr (.inr ⟨mf', rfl, hover⟩)
  · intro lists last vregs hempty hlists hround
    have hgiven := hlists.givenUp (RegisterSet.size_pos hempty) h
    obtain ⟨hne, hnodup, hfound⟩ := spillable_of_colorRound (RegisterSet.size_pos hempty) hround
    refine ⟨hne, hgiven.nodup.append hnodup fun v hbefore hv => (hgiven.next v (hfound v hv)).2 hbefore,
      fun v hv => ⟨(hgiven.next v (hfound v hv)).1.mem_plainVregs, (hfound v hv).mentioned⟩⟩

/-- With one register, one of two values is given up in the first round. -/
theorem rounds_le_of_allocate_twoValues :
    AllocatedRun.twoValues.Allotted ∧ AllocatedRun.twoValues.plainVregs = [0, 1] ∧
    (colorRound AllocatedRun.oneRegister).run AllocatedRun.twoValues = (.ok (.inr [0]), AllocatedRun.twoValues) ∧
    ([] ++ [0] : List Nat).Nodup ∧ 0 ∈ AllocatedRun.twoValues.plainVregs := by
  have hallotted : AllocatedRun.twoValues.Allotted := ⟨by decide, by decide⟩
  obtain ⟨-, hgiven⟩ := rounds_le_of_allocate AllocatedRun.twoValues AllocatedRun.oneRegister hallotted
  obtain ⟨-, hnodup, hfound⟩ := hgiven [] AllocatedRun.twoValues [0] (by decide) (.none _)
    AllocatedRun.firstRound_twoValues
  exact ⟨hallotted, by decide, AllocatedRun.firstRound_twoValues, hnodup, (hfound 0 (by decide)).1⟩

/-- An edit that asks a question first fails as the answer does. -/
theorem run_ask_bind_error {α β : Type} (question : MachineFunction → Outcome α) {e : Failure}
    (h : question mf = .error e) (next : α → MachineEdit β) : (ask question >>= next).run mf = (.error e, mf) := by
  rw [run_bind, run_ask, h]

/-- A block that weighs half of what a word holds. -/
def heavyBlock : MachineFunction :=
  { name := "f", isMain := false, returnsValue := false, vregCount := 1
    blocks := #[{ label := "f_f_b0", loopDepth := 0x80000000, insts := [
      .move (.virtual 0) (.immediate 1), .move (.virtual 0) (.immediate 2), .ret false] }] }

/-- Two mentions of a register in a heavy block are too much for its weight, and allocation neither succeeds nor
reports an error. -/
theorem allocate_heavyBlock :
    heavyBlock.Counted ∧
      ((allocate AllocatedRun.oneRegister none).run heavyBlock).1 = .error (.crash none) := by
  have hliveness : Liveness.ofFunction heavyBlock AllocatedRun.oneRegister = .ok (AllocatedRun.oneBlock (1 <<< 32)) := by
    cbv
  have hgraph : Interference.ofFunction heavyBlock AllocatedRun.oneRegister (AllocatedRun.oneBlock (1 <<< 32)) =
      .crash := by
    with_unfolding_all rfl
  refine ⟨by decide, ?_⟩
  have hround : (colorRound AllocatedRun.oneRegister).run heavyBlock = (.error (.crash none), heavyBlock) := by
    unfold colorRound
    rw [run_ask_bind (Liveness.ofFunction · AllocatedRun.oneRegister) hliveness]
    exact run_ask_bind_error (Interference.ofFunction · _ _) hgraph _
  have hwithin : (allocateWithin AllocatedRun.oneRegister 3 3 1 0).run heavyBlock =
      (.error (.crash none), heavyBlock) := by
    rw [allocateWithin, run_bind, hround]
  exact congrArg Prod.fst hwithin

end MachineEdit

end SsaCompiler
