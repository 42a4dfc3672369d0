import SsaCompiler.Proofs.Machine.AllocatedRun

/-!
# Registers that allocation keeps apart

Allocation ends with a round in which every node gets a colour. What that round saw is the function as the
rounds before it left it, each of them having spilled some registers (`Rounds`). In that function no
instruction writes the register of a node that some path still reads, copies apart.
-/

set_option autoImplicit false

namespace SsaCompiler

/-- The pairs that are listed as interfering do interfere. -/
theorem Interference.adjacent_of_mem_edges {g : Interference} {e : Nat × Nat} (h : e ∈ g.edges) :
    g.adjacent e.1 e.2 = true := by
  unfold edges at h
  simp only [List.mem_flatMap, List.mem_map, List.mem_filter] at h
  obtain ⟨u, -, v, ⟨hv, -⟩, rfl⟩ := h
  exact NatSet.mem_toList.1 hv

namespace MachineEdit

open Edits

variable {mf mf' last : MachineFunction} {budget : RegisterSet}

/-- Puts registers into the frame, one after the other. -/
def spillAll (vregs : List Nat) : MachineEdit Unit :=
  vregs.forM fun v => do
    let mf ← ask (·.spill v)
    set mf

/-- Some rounds that end with spilling, from one function to the function that the next round starts with. -/
inductive Rounds (budget : RegisterSet) : Nat → MachineFunction → MachineFunction → Prop
  | none (mf : MachineFunction) : Rounds budget 0 mf mf
  | spill {n : Nat} {mf mf₁ last : MachineFunction} {vregs : List Nat} :
      (colorRound budget).run mf = (.ok (.inr vregs), mf) → (spillAll vregs).run mf = (.ok (), mf₁) →
      Rounds budget n mf₁ last → Rounds budget (n + 1) mf last

/-- The same rounds with the registers that each of them gives up. -/
inductive Spills (budget : RegisterSet) : List (List Nat) → MachineFunction → MachineFunction → Prop
  | none (mf : MachineFunction) : Spills budget [] mf mf
  | round {mf mf₁ last : MachineFunction} {vregs : List Nat} {lists : List (List Nat)} :
      (colorRound budget).run mf = (.ok (.inr vregs), mf) → (spillAll vregs).run mf = (.ok (), mf₁) →
      Spills budget lists mf₁ last → Spills budget (vregs :: lists) mf last

/-- Rounds are counted by the lists of what they give up. -/
theorem Spills.rounds {lists : List (List Nat)} (h : Spills budget lists mf last) :
    Rounds budget lists.length mf last := by
  induction h with
  | none mf => exact .none mf
  | round hround hspill _ ih => exact .spill hround hspill ih

/-- Spilling registers that are no temporaries writes temporaries behind transfers only. -/
theorem tailTemporary_spillAll {vregs : List Nat} : ∀ {mf : MachineFunction}, mf.TailTemporary budget → mf.Counted →
      (∀ v ∈ vregs, v < mf.vregCount ∧ mf.spillTemps.contains v = false) →
      (spillAll vregs).run mf = (.ok (), mf') → mf'.TailTemporary budget := by
  induction vregs with
  | nil =>
    intro mf h _ _ hrun
    cases hrun
    exact h
  | cons v rest ih =>
    intro mf h hcount hlist hrun
    obtain ⟨hv, hplain⟩ := hlist v List.mem_cons_self
    obtain ⟨⟨⟩, mf₁, hfirst, hrest⟩ := bind_eq_ok hrun
    obtain ⟨mf₂, hspill, hset⟩ := ask_bind_eq_ok hfirst
    cases hset
    have hs : Spilled True mf v mf₁ := spilled_of_spill hspill fun b _ => h.tailDefs_ne hplain b
    refine ih (h.spilled hcount hv hs) (hcount.spilled hs) (fun u hu => ?_) hrest
    obtain ⟨hu, hplain'⟩ := hlist u (List.mem_cons_of_mem _ hu)
    exact ⟨hu.trans_le hs.count, (hs.old u hu).trans hplain'⟩

/-- The last round finds a function in which temporaries alone are written behind transfers. -/
theorem Rounds.tailTemporary {n : Nat} (hbudget : 0 < budget.size) (h : Rounds budget n mf last) :
    mf.TailTemporary budget → last.TailTemporary budget := by
  induction h with
  | none mf => exact id
  | spill hround hspill _ ih =>
    intro htail
    obtain ⟨-, hcount, hfound⟩ := colorRound_spec htail.tailLocal hbudget hround
    exact ih (tailTemporary_spillAll htail hcount hfound.spillable hspill)

variable {a : Allocation} {i : Instr} {registers : List Register}

/-- An allocation is some rounds with spilling, one that finds colours, and the assignment of those. -/
theorem spills_of_allocateWithin {cap limit : Nat} : ∀ {mf : MachineFunction} {round spilled : Nat},
      (allocateWithin budget cap limit round spilled).run mf = (.ok a, mf') →
      ∃ lists last graph idle, a.rounds = round + lists.length ∧ a.spilled = spilled + lists.flatten.length ∧
        Spills budget lists mf last ∧
        (colorRound budget).run last = (.ok (.inl (a.assignment, graph)), last) ∧
        a.interference = graph.edges ∧
        (applyAssignment a.assignment.toArray).run last = (.ok idle, mf') := by
  induction limit with
  | zero =>
    intro mf round spilled hrun
    obtain ⟨mf₁, mf₂, -, h₁⟩ := bind_eq_ok hrun
    cases h₁
  | succ limit ih =>
    intro mf round spilled hrun
    unfold allocateWithin at hrun
    obtain ⟨r, mf₁, hround, h₁⟩ := bind_eq_ok hrun
    obtain ⟨rfl, -⟩ := colorRound_eq_ok hround
    cases r with
    | inl found =>
      obtain ⟨idle, mf₂, hassign, h₂⟩ := bind_eq_ok h₁
      cases h₂
      exact ⟨[], mf₁, found.2, idle, rfl, rfl, .none mf₁, hround, rfl, hassign⟩
    | inr vregs =>
      obtain ⟨⟨⟩, mf₂, hspill, h₂⟩ := bind_eq_ok h₁
      obtain ⟨lists, last, graph, idle, hrounds, hcount, hlast, hrest⟩ := ih h₂
      refine ⟨vregs :: lists, last, graph, idle, ?_, ?_, .round hround hspill hlast, hrest⟩
      · rw [List.length_cons]
        omega
      · rw [List.flatten_cons, List.length_append]
        omega

/-- The same with the rounds counted. -/
theorem rounds_of_allocateWithin {cap limit round spilled : Nat}
    (h : (allocateWithin budget cap limit round spilled).run mf = (.ok a, mf')) :
    ∃ n last graph idle, a.rounds = round + n ∧ Rounds budget n mf last ∧
      (colorRound budget).run last = (.ok (.inl (a.assignment, graph)), last) ∧
      a.interference = graph.edges ∧
      (applyAssignment a.assignment.toArray).run last = (.ok idle, mf') := by
  obtain ⟨lists, last, graph, idle, hrounds, -, hlast, hrest⟩ := spills_of_allocateWithin h
  exact ⟨lists.length, last, graph, idle, hrounds, hlast.rounds, hrest⟩

/-- Assigning registers leaves no virtual register. -/
theorem virtual?_of_applyAssignment {idle : Nat} (h : (applyAssignment registers.toArray).run mf = (.ok idle, mf'))
    (hi : i ∈ mf'.placedInsts) {op : Operand} (hop : op ∈ i.mentions) : op.virtual? = none := by
  unfold applyAssignment at h
  obtain ⟨⟨⟩, mf₁, hmap, h⟩ := bind_eq_ok h
  cases hmap
  have h := of_get_bind h
  split at h
  · cases h
  · rename_i hnone
    obtain ⟨⟨⟩, mf₄, hfilter, h⟩ := bind_eq_ok h
    cases hfilter
    cases h
    rw [List.find?_eq_none] at hnone
    have hbefore := hnone op (List.mem_flatMap.2 ⟨i, ?_, hop⟩)
    · rwa [Option.not_isSome_iff_eq_none] at hbefore
    -- Idle copies are dropped, so what is left was there before.
    · unfold MachineFunction.placedInsts at hi ⊢
      simp only [Array.toList_map, List.mem_flatMap, List.mem_map] at hi ⊢
      obtain ⟨d, ⟨d', ⟨d'', hd'', rfl⟩, rfl⟩, hi⟩ := hi
      exact ⟨_, ⟨d'', hd'', rfl⟩, List.mem_of_mem_filter hi⟩

/-- A copy writes one node. -/
theorem defNodes_of_copyNodes? {d x : Nat} (h : Interference.copyNodes? budget i = some (d, x)) :
    i.defNodes budget = [d] := by
  cases i with
  | move dst src =>
    simp only [Interference.copyNodes?, Instr.copy?, Option.bind_eq_bind, Option.pure_def] at h
    split at h
    · simp only [Option.bind_some, Option.bind_eq_some_iff, Option.some.injEq, Prod.mk.injEq] at h
      obtain ⟨d', hd', -, -, rfl, -⟩ := h
      simp [Instr.defNodes, Instr.defs, hd']
    · cases h
  | _ => cases h

/-- Two nodes have registers, and these differ. -/
def Apart (registers : List Register) (x y : Nat) : Prop :=
  ∃ r r', nodeRegister? registers x = some r ∧ nodeRegister? registers y = some r' ∧ r ≠ r'

/-- Whatever an instruction writes is apart from everything else that is live behind the instruction, except
for the source of a copy to it. -/
def KeepsApart (mf : MachineFunction) (budget : RegisterSet) (registers : List Register) : Prop :=
  ∀ b pre i rest, mf.instsOf b = pre ++ i :: rest → ∀ d ∈ i.defNodes budget, ∀ l, mf.LiveFrom budget l rest →
    l ≠ d → Interference.copyNodes? budget i ≠ some (d, l) → Apart registers d l

/-- Registers that separate what is live keep it apart. -/
theorem keepsApart_of_separates (h : Separates mf budget registers) : KeepsApart mf budget registers := by
  intro b pre i rest hb d hd l hlive hne hcopy
  have hplaced : ∀ j ∈ i :: rest, j ∈ mf.placedInsts := by
    intro j hj
    rw [MachineFunction.mem_placedInsts]
    exact ⟨b, hb ▸ List.mem_append_right pre hj⟩
  obtain ⟨r, hr, -⟩ := h.exists_register_of_mem (hplaced i List.mem_cons_self) (List.mem_append_left _ hd)
  obtain ⟨r', hr', -⟩ := h.exists_register_of_live (fun j hj => hplaced j (List.mem_cons_of_mem i hj)) hlive
  refine ⟨r, r', hr, hr', fun heq => ?_⟩
  refine h.apart b pre i rest hb d hd l hlive hne (fun c s hcs hls => hcopy ?_) (by rw [hr, hr', heq])
  rw [defNodes_of_copyNodes? hcs, List.mem_singleton] at hd
  rw [hcs, hd, hls]

/-- **Registers of nodes that are live at the same time differ.** In the function as the last round of an
allocation found it, an instruction that writes a node gets another register for it than any node that is
live behind the instruction, except where it copies the one to the other. Nodes that interfere have different
registers, all registers that are handed out are in the budget, and no virtual register is left. -/
theorem apart_of_allocate {maxRounds : Option Nat} {a : Allocation} (htransfers : mf.TransfersLast)
    (h : (allocate budget maxRounds).run mf = (.ok a, mf')) :
    ∃ n last graph, a.rounds = n + 1 ∧ Rounds budget n mf last ∧
      (colorRound budget).run last = (.ok (.inl (a.assignment, graph)), last) ∧
      KeepsApart last budget a.assignment ∧ (∀ e ∈ a.interference, Apart a.assignment e.1 e.2) ∧
      (∀ r ∈ a.assignment, budget.contains r = true) ∧
      ∀ i ∈ mf'.placedInsts, ∀ op ∈ i.mentions, op.virtual? = none := by
  unfold allocate at h
  have h₁ := of_get_bind h
  cases hempty : budget.isEmpty with
  | true =>
    rw [hempty] at h₁
    cases h₁
  | false =>
    rw [hempty] at h₁
    have hbudget := RegisterSet.size_pos hempty
    obtain ⟨n, last, graph, idle, hrounds, hlast, hround, hedges, hassign⟩ := rounds_of_allocateWithin h₁
    have htail := hlast.tailTemporary hbudget htransfers.tailTemporary
    obtain ⟨-, -, hsep, hadjacent⟩ := colorRound_spec htail.tailLocal hbudget hround
    refine ⟨n, last, graph, by omega, hlast, hround, keepsApart_of_separates hsep, fun e he => ?_,
      hsep.inBudget, fun i hi op => virtual?_of_applyAssignment hassign hi⟩
    rw [hedges] at he
    exact hadjacent e.1 e.2 (Interference.adjacent_of_mem_edges he)

/-- With one register the two values of the function are kept apart by spilling one of them. -/
theorem apart_of_allocate_twoValues :
    ∃ a mf', AllocatedRun.twoValues.TransfersLast ∧
      (allocate AllocatedRun.oneRegister (some 2)).run AllocatedRun.twoValues = (.ok a, mf') ∧ a.spilled = 1 ∧
      ∃ last, KeepsApart last AllocatedRun.oneRegister a.assignment ∧
        (∀ r ∈ a.assignment, AllocatedRun.oneRegister.contains r = true) ∧
        ∀ i ∈ mf'.placedInsts, ∀ op ∈ i.mentions, op.virtual? = none := by
  obtain ⟨a, hrun, hspilled⟩ := AllocatedRun.allocate_twoValues
  obtain ⟨n, last, graph, -, -, -, hapart, -, hbudget, hvirtual⟩ :=
    apart_of_allocate AllocatedRun.transfersLast_twoValues hrun
  exact ⟨a, _, AllocatedRun.transfersLast_twoValues, hrun, hspilled, last, hapart, hbudget, hvirtual⟩

end MachineEdit

end SsaCompiler
