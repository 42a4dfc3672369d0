import SsaCompiler.Machine.Frame
import SsaCompiler.Proofs.Machine.FinishedColoring
import SsaCompiler.Proofs.Machine.SeparatedNodes
import SsaCompiler.Proofs.Machine.SettledLiveness

/-!
# Allocation comes to an end

On a function whose virtual registers are counted and whose transfers stay inside, the analyses of a round all succeed.
A round that spills gives up registers that the code mentions and that are no temporaries, and afterwards the code
does not mention them any more. So the rounds end within their limit, with a register for every virtual register. What
can go wrong is that there is no register for a temporary, or that a weight or the frame leaves the word range.

None of this needs the spilled code to be right, so it holds also where registers are written behind transfers.
-/

set_option autoImplicit false

namespace SsaCompiler

variable {i : Instr} {careful : Prop}

namespace MachineFunction

variable {mf mf' : MachineFunction} {budget : RegisterSet}

/-- What every round needs of a function, beyond what it needs to be right: it is linked, and the registers that its code
mentions are counted. -/
structure Allotted (mf : MachineFunction) : Prop extends mf.Linked where
  counted : mf.Counted

/-- Spilling keeps a function linked. -/
theorem Linked.spilled (h : mf.Linked) {v : Nat} (hs : Spilled careful mf v mf') : mf'.Linked := by
  refine ⟨hs.size ▸ h.nonempty, fun b i hi t ht => ?_⟩
  obtain ⟨j, hj, hjt⟩ := (hs.code b).mem_targets i hi t ht
  rw [hs.size]
  exact h.targets b j hj t hjt

/-- Spilling keeps what rounds need. -/
theorem Allotted.spilled (h : mf.Allotted) {v : Nat} (hs : Spilled careful mf v mf') : mf'.Allotted :=
  ⟨h.toLinked.spilled hs, h.counted.spilled hs⟩

/-- All nodes that are mentioned are known. -/
theorem Counted.known (h : mf.Counted) (hi : i ∈ mf.placedInsts) {x : Nat}
    (hx : x ∈ i.defNodes budget ++ i.useNodes budget) : x < Interference.nodeCount mf := by
  have hnode : ∀ {op : Operand}, Node.ofOperand? budget op = some x → op ∈ i.sources ∨ op ∈ i.defs →
      x < Interference.nodeCount mf := by
    intro op hop hmem
    rcases Node.ofOperand?_cases hop with ⟨n, rfl, rfl⟩ | ⟨r, hr, rfl, -⟩
    · exact Nat.add_lt_add_left (h i hi n hmem) _
    · exact Nat.lt_of_lt_of_le r.index.isLt (Nat.le_add_right _ _)
  rcases List.mem_append.1 hx with hx | hx
  · obtain ⟨op, hop, hopx⟩ := List.mem_filterMap.1 hx
    exact hnode hopx (.inr hop)
  · obtain ⟨op, hop, hopx⟩ := List.mem_filterMap.1 hx
    exact hnode hopx (.inl (List.mem_of_mem_filter hop))

end MachineFunction

namespace Interference

/-- The weight of some node outgrows its word. -/
def Overweight (mf : MachineFunction) (budget : RegisterSet) (l : Liveness) : Prop :=
  ∃ w ∈ (mf.blockIds.reverse.foldl (scanBlock budget l mf) (blank (nodeCount mf))).loopWeight, weightLimit ≤ w

/-- The graph of a function whose virtual registers are counted can be built unless a weight is too large. -/
theorem ofFunction_total {mf : MachineFunction} (budget : RegisterSet) (l : Liveness) (h : mf.Counted) :
    (ofFunction mf budget l).FailsOnly fun e => e = .crash none ∧ Overweight mf budget l := by
  unfold ofFunction
  dsimp only
  rw [if_pos]
  · split
    · exact .ok _
    · rename_i hweight
      refine .error ⟨rfl, ?_⟩
      rw [Array.all_eq_true_iff_forall_mem] at hweight
      push Not at hweight
      obtain ⟨w, hw, hlt⟩ := hweight
      exact ⟨w, hw, by simpa using hlt⟩
  · refine List.all_eq_true.2 fun i hi => List.all_eq_true.2 fun x hx => decide_eq_true (h.known hi hx)

end Interference

namespace MachineEdit

open Edits

variable {α β : Type} {mf mf' last : MachineFunction} {budget : RegisterSet} {allowed : Failure → Prop}

/-- An edit of a function fails in an allowed way only, if it fails. -/
def FailsOnly (allowed : Failure → Prop) (edit : MachineEdit α) (mf : MachineFunction) : Prop :=
  Outcome.FailsOnly allowed (edit.run mf).1

/-- Two edits fail as one of them does. -/
theorem failsOnly_bind {edit : MachineEdit α} {next : α → MachineEdit β} (h : FailsOnly allowed edit mf)
    (hnext : ∀ a mf₁, edit.run mf = (.ok a, mf₁) → FailsOnly allowed (next a) mf₁) :
    FailsOnly allowed (edit >>= next) mf := by
  unfold FailsOnly at h ⊢
  rw [run_bind]
  rcases hr : edit.run mf with ⟨r, mf₁⟩
  rw [hr] at h
  cases r with
  | ok a => exact hnext a mf₁ hr
  | error e => exact .error (h e rfl)

/-- A question fails as its answer does. -/
theorem failsOnly_ask {question : MachineFunction → Outcome α} (h : (question mf).FailsOnly allowed) :
    FailsOnly allowed (ask question) mf := by
  unfold FailsOnly
  rw [run_ask]
  exact h

/-- A round fails only for want of a register for a temporary, or because a weight is too large. -/
theorem colorRound_total (h : mf.Allotted) (hbudget : 0 < budget.size) :
    FailsOnly (fun e => (∃ fault, e = .error (.registerAllocation mf.name fault)) ∨
      e = .crash none ∧ ∃ l, Liveness.ofFunction mf budget = .ok l ∧ Interference.Overweight mf budget l)
      (colorRound budget) mf := by
  unfold colorRound
  refine failsOnly_bind (failsOnly_ask (.of_exists (Liveness.ofFunction_total mf budget h.toLinked)))
    fun l mf₁ hl₀ => ?_
  obtain ⟨hl, rfl⟩ := ask_eq_ok hl₀
  refine failsOnly_bind (failsOnly_ask ((Interference.ofFunction_total budget l h.counted).mono
    fun e he => .inr ⟨he.1, l, hl, he.2⟩)) fun g mf₂ hg₀ => ?_
  obtain ⟨hg, rfl⟩ := ask_eq_ok hg₀
  obtain ⟨hbuilt, -, -⟩ := Interference.ofFunction_spec (Liveness.sound_of_ofFunction hl) hg
  refine failsOnly_bind (.ok _) fun mf₃ mf₄ hget => ?_
  cases hget
  refine failsOnly_bind (failsOnly_ask ?_) fun result mf₅ hcolors₀ => ?_
  · intro e he
    rcases Coloring.assignColors_total mf.name (Coloring.start mf budget g).run.stack .empty
      (Coloring.start mf budget g).run with ⟨r, hr⟩ | ⟨fault, hfault⟩
    · cases hr.symm.trans he
    · cases hfault.symm.trans he
      exact .inl ⟨fault, rfl⟩
  obtain ⟨hcolors, rfl⟩ := ask_eq_ok hcolors₀
  obtain ⟨spilled, c⟩ := result
  dsimp only
  split
  · rename_i hempty
    exact failsOnly_bind (failsOnly_ask (.of_exists (Coloring.assignment_of_assignColors mf hbuilt
      (Nat.le_add_right _ _) hbudget hcolors hempty))) fun registers mf₆ _ => .ok _
  · exact .ok _

/-! ## Registers that are given up -/

/-- After a register is spilled the others that may be given up are those from before. -/
theorem Spillable.of_spilled {v n : Nat} (hcount : mf.Counted) (hs : Spilled careful mf v mf') (h : Spillable mf' n) :
    Spillable mf n ∧ n ≠ v := by
  have hold : ¬ Between mf mf' n := fun hb => Bool.noConfusion (h.plain.symm.trans (hs.new n hb.1 hb.2))
  obtain ⟨i, hi, hmem⟩ := h.mentioned
  obtain ⟨b, hb⟩ := MachineFunction.mem_placedInsts.1 hi
  obtain ⟨hne, j, hj, hjn⟩ : n ≠ v ∧ ∃ j ∈ mf.instsOf b, Operand.virtual n ∈ j.sources ∨ Operand.virtual n ∈ j.defs := by
    rcases hmem with hmem | hmem
    · rcases (hs.code b).mem_sources i hb n hmem with ⟨hne, j, hj, hjn⟩ | hfresh | htemp
      · exact ⟨hne, j, hj, .inl hjn⟩
      · exact absurd hfresh hold
      · cases htemp
    · rcases (hs.code b).mem_defs i hb _ hmem with ⟨hne, j, hj, hjn⟩ | ⟨t, ht, hfresh | htemp⟩
      · exact ⟨fun hnv => hne (hnv ▸ rfl), j, hj, .inr hjn⟩
      · exact absurd (Operand.virtual.inj ht ▸ hfresh) hold
      · cases htemp
  have hplaced := MachineFunction.mem_placedInsts.2 ⟨b, hj⟩
  have hlt := hcount j hplaced n hjn
  exact ⟨⟨hlt, (hs.old n hlt).symm.trans h.plain, j, hplaced, hjn⟩, hne⟩

/-- Spilling one register and then others. -/
theorem spillAll_cons (v : Nat) (rest : List Nat) :
    spillAll (v :: rest) = (do let mf ← ask (·.spill v); set mf) >>= fun _ => spillAll rest := rfl

/-- Spilling registers keeps what rounds need, and the code mentions them no more. -/
theorem spillAll_spec {vregs : List Nat} : ∀ {mf : MachineFunction}, mf.Allotted →
    (spillAll vregs).run mf = (.ok (), mf') →
    mf'.Allotted ∧ mf'.name = mf.name ∧ ∀ n, Spillable mf' n → Spillable mf n ∧ n ∉ vregs := by
  induction vregs with
  | nil =>
    intro mf h hrun
    cases hrun
    exact ⟨h, rfl, fun n hn => ⟨hn, List.not_mem_nil⟩⟩
  | cons v rest ih =>
    intro mf h hrun
    rw [spillAll_cons] at hrun
    obtain ⟨⟨⟩, mf₁, hfirst, hrest⟩ := bind_eq_ok hrun
    obtain ⟨mf₂, hspill, hset⟩ := ask_bind_eq_ok hfirst
    cases hset
    have hs : Spilled False mf v mf₁ := spilled_of_spill hspill fun b hcare => hcare.elim
    obtain ⟨hend, hname, hleft⟩ := ih (h.spilled hs) hrest
    refine ⟨hend, hname.trans hs.name, fun n hn => ?_⟩
    obtain ⟨hn₁, hout⟩ := hleft n hn
    obtain ⟨hn₀, hne⟩ := hn₁.of_spilled h.counted hs
    exact ⟨hn₀, fun hmem => (List.mem_cons.1 hmem).elim hne hout⟩

/-- There is no room in the frame for one of some registers when those before it are there. -/
def FrameFull (mf : MachineFunction) (vregs : List Nat) : Prop :=
  ∃ before v after mid, vregs = before ++ v :: after ∧ (spillAll before).run mf = (.ok (), mid) ∧
    Word.add? mid.frameSize 4 = none

/-- Spilling registers fails only because the frame is full. -/
theorem spillAll_total (vregs : List Nat) : ∀ mf : MachineFunction,
    FailsOnly (fun e => e = .crash none ∧ FrameFull mf vregs) (spillAll vregs) mf := by
  induction vregs with
  | nil => exact fun mf => .ok ()
  | cons v rest ih =>
    intro mf
    rw [spillAll_cons]
    refine failsOnly_bind (failsOnly_bind (failsOnly_ask fun e he => ?_) fun _ _ _ => .ok _) fun _ mf₁ hfirst => ?_
    · unfold MachineFunction.spill MachineFunction.allocFrame at he
      cases hframe : Word.add? mf.frameSize 4 with
      | some size =>
        rw [hframe] at he
        cases he
      | none =>
        rw [hframe] at he
        cases he
        exact ⟨rfl, [], v, rest, mf, rfl, rfl, hframe⟩
    · intro e he
      obtain ⟨hcrash, before, u, after, mid, rfl, hspilled, hfull⟩ := ih mf₁ e he
      refine ⟨hcrash, v :: before, u, after, mid, rfl, ?_, hfull⟩
      rw [spillAll_cons, run_bind, hfirst]
      exact hspilled

/-! ## The rounds -/

/-- Allocation leaves the word range: in some round a weight is too large, or the frame is full. -/
inductive RoundsOverflow (budget : RegisterSet) (mf : MachineFunction) : Prop
  | weight {n : Nat} {last : MachineFunction} {l : Liveness} (hrounds : Rounds budget n mf last)
      (hl : Liveness.ofFunction last budget = .ok l) (hover : Interference.Overweight last budget l)
  | frame {n : Nat} {last : MachineFunction} {vregs : List Nat} (hrounds : Rounds budget n mf last)
      (hround : (colorRound budget).run last = (.ok (.inr vregs), last)) (hfull : FrameFull last vregs)

/-- What goes wrong in a later round goes wrong in the whole. -/
theorem RoundsOverflow.spill {mf₁ : MachineFunction} {vregs : List Nat}
    (hround : (colorRound budget).run mf = (.ok (.inr vregs), mf)) (hspill : (spillAll vregs).run mf = (.ok (), mf₁))
    (h : RoundsOverflow budget mf₁) : RoundsOverflow budget mf := by
  cases h with
  | weight hrounds hl hover => exact .weight (.spill hround hspill hrounds) hl hover
  | frame hrounds hlast hfull => exact .frame (.spill hround hspill hrounds) hlast hfull

/-- Rounds that spill keep what rounds need. -/
theorem Rounds.allotted {n : Nat} (h : Rounds budget n mf last) : mf.Allotted → last.Allotted := by
  induction h with
  | none mf => exact id
  | spill _ hspill _ ih => exact fun hmf => ih (spillAll_spec hmf hspill).1

variable {registers saved : List Register} {base dst : Operand} {savedBytes : Word}

/-- A round that ends allocation finds a register for each virtual register. -/
theorem length_of_colorRound {graph : Interference} (hbudget : 0 < budget.size)
    (h : (colorRound budget).run mf = (.ok (.inl (registers, graph)), mf')) : registers.length = mf.vregCount := by
  obtain ⟨-, l, g, spilled, c, hl, hg, hcolors, ⟨-, registers', hassign, hr⟩ | ⟨-, hr⟩⟩ := colorRound_eq_ok h
  · cases hr
    exact Coloring.length_of_assignment (Coloring.size_of_round hbudget hl hg hcolors) hassign
  · cases hr

/-- Putting a register for each virtual register leaves none. -/
theorem applyAssignment_total (h : mf.Counted) (hlength : registers.length = mf.vregCount) :
    FailsOnly allowed (applyAssignment registers.toArray) mf := by
  have hcolored : ∀ op : Operand, (∀ n, op = .virtual n → n < mf.vregCount) →
      (Instr.mapOperand (colored registers.toArray) op).virtual? = none := by
    intro op hop
    cases op with
    | fixed r | allocated r | immediate c => rfl
    | «virtual» n =>
      have hn : n < registers.length := hlength ▸ hop n rfl
      simp [Instr.mapOperand, Operand.isRegister, colored, hn, Operand.virtual?]
  unfold applyAssignment
  refine failsOnly_bind (.ok _) fun _ mf₁ hmap => ?_
  cases hmap
  refine failsOnly_bind (.ok _) fun mf₂ mf₃ hget => ?_
  cases hget
  split
  · rename_i op hfound
    exfalso
    have hsome := List.find?_some hfound
    have hmem := List.mem_of_find?_eq_some hfound
    rw [List.mem_flatMap] at hmem
    obtain ⟨i', hi', hop⟩ := hmem
    obtain ⟨i, hi, rfl⟩ : ∃ i ∈ mf.placedInsts, i' = i.mapRegisters (colored registers.toArray) := by
      unfold MachineFunction.placedInsts at hi' ⊢
      simp only [Array.toList_map, List.mem_flatMap, List.mem_map] at hi' ⊢
      obtain ⟨d, ⟨d', hd', rfl⟩, hin⟩ := hi'
      obtain ⟨i, hi, rfl⟩ := List.mem_map.1 hin
      exact ⟨i, ⟨d', hd', hi⟩, rfl⟩
    obtain ⟨op₀, hop₀, rfl⟩ : ∃ op₀, (op₀ ∈ i.sources ∨ op₀ ∈ i.defs) ∧ op = Instr.mapOperand (colored registers.toArray) op₀ := by
      rcases List.mem_append.1 hop with hop | hop
      · rw [Instr.defs_mapRegisters _ fun _ => rfl, List.mem_map] at hop
        obtain ⟨op₀, hop₀, rfl⟩ := hop
        exact ⟨op₀, .inr hop₀, rfl⟩
      · have hop' := List.mem_of_mem_filter hop
        rw [Instr.sources_mapRegisters _ fun _ => rfl, List.mem_map] at hop'
        obtain ⟨op₀, hop₀, rfl⟩ := hop'
        exact ⟨op₀, .inl hop₀, rfl⟩
    rw [hcolored op₀ fun n hn => h i hi n (hn ▸ hop₀)] at hsome
    cases hsome
  · exact failsOnly_bind (.ok _) fun _ _ _ => .ok _

/-- Rounds end before the limit when there are fewer registers to give up. -/
theorem allocateWithin_total {cap limit : Nat} (hbudget : 0 < budget.size) :
    ∀ {mf : MachineFunction} {round spilled : Nat} {left : List Nat}, mf.Allotted →
      (∀ n, Spillable mf n → n ∈ left) → left.length < limit →
      FailsOnly (fun e => (∃ fault, e = .error (.registerAllocation mf.name fault)) ∨
        e = .crash none ∧ RoundsOverflow budget mf) (allocateWithin budget cap limit round spilled) mf := by
  induction limit with
  | zero => exact fun _ _ hlt => absurd hlt (Nat.not_lt_zero _)
  | succ limit ih =>
    intro mf round spilled left h hleft hlt
    unfold allocateWithin
    refine failsOnly_bind (Outcome.FailsOnly.mono (colorRound_total h hbudget) fun e he => ?_) fun r mf₁ hround => ?_
    · refine he.imp_right ?_
      rintro ⟨hcrash, l, hl, hover⟩
      exact ⟨hcrash, .weight (.none mf) hl hover⟩
    obtain ⟨rfl, -⟩ := colorRound_eq_ok hround
    cases r with
    | inl found =>
      exact failsOnly_bind (applyAssignment_total h.counted (length_of_colorRound hbudget hround)) fun _ _ _ => .ok _
    | inr vregs =>
      obtain ⟨hne, -, hfound⟩ := spillable_of_colorRound hbudget hround
      refine failsOnly_bind (Outcome.FailsOnly.mono (spillAll_total vregs _) fun e he =>
        .inr ⟨he.1, .frame (.none _) hround he.2⟩) fun _ mf₂ hspill => ?_
      obtain ⟨h₂, hname, hgone⟩ := spillAll_spec h hspill
      -- One of the registers that were left is no longer.
      obtain ⟨v, hv⟩ := List.exists_mem_of_ne_nil _ hne
      have hless : (left.filter fun n => decide (n ∉ vregs)).length < left.length :=
        List.length_filter_lt_length_iff_exists.2 ⟨v, hleft v (hfound v hv), by simpa using hv⟩
      refine Outcome.FailsOnly.mono (@ih mf₂ _ _ (left.filter fun n => decide (n ∉ vregs)) h₂
        (fun n hn => ?_) (by omega)) fun e he => ?_
      · obtain ⟨hn₀, hout⟩ := hgone n hn
        exact List.mem_filter.2 ⟨hleft n hn₀, decide_eq_true hout⟩
      · rw [hname] at he
        exact he.imp_right fun he => ⟨he.1, he.2.spill hround hspill⟩

/-- Without a cap on the rounds allocation fails only for want of registers, or because a weight or the frame leaves
the word range. -/
theorem allocate_total (h : mf.Allotted) :
    FailsOnly (fun e => (∃ fault, e = .error (.registerAllocation mf.name fault)) ∨
      e = .crash none ∧ RoundsOverflow budget mf) (allocate budget none) mf := by
  unfold allocate
  refine failsOnly_bind (.ok _) fun mf₁ mf₂ hget => ?_
  cases hget
  cases hempty : budget.isEmpty with
  | true => exact .error (.inl ⟨.emptyBudget, rfl⟩)
  | false =>
    refine @allocateWithin_total _ _ _ (RegisterSet.size_pos hempty) mf 1 0
      ((List.range mf.vregCount).filter fun v => !mf.spillTemps.contains v) h (fun n hn => ?_) ?_
    · exact List.mem_filter.2 ⟨List.mem_range.2 hn.counted, by simp [hn.plain]⟩
    · rw [← List.countP_eq_length_filter]
      exact Nat.lt_add_of_pos_right (by decide)

/-- An allocated function has blocks, and its code mentions no virtual register. -/
theorem allocate_spec {maxRounds : Option Nat} {a : Allocation} (h : mf.Allotted)
    (hrun : (allocate budget maxRounds).run mf = (.ok a, mf')) :
    0 < mf'.blocks.size ∧ ∀ i ∈ mf'.placedInsts, ∀ op ∈ i.mentions, op.virtual? = none := by
  unfold allocate at hrun
  have hrun := of_get_bind hrun
  cases hempty : budget.isEmpty with
  | true =>
    rw [hempty] at hrun
    cases hrun
  | false =>
    rw [hempty] at hrun
    obtain ⟨n, last, graph, idle, -, hrounds, -, -, hassign⟩ := rounds_of_allocateWithin hrun
    refine ⟨?_, fun i hi op => virtual?_of_applyAssignment hassign hi⟩
    have hsize : mf'.blocks.size = last.blocks.size := by
      unfold applyAssignment at hassign
      obtain ⟨⟨⟩, mf₁, hmap, hassign⟩ := bind_eq_ok hassign
      cases hmap
      have hassign := of_get_bind hassign
      split at hassign
      · cases hassign
      · obtain ⟨⟨⟩, mf₄, hfilter, hassign⟩ := bind_eq_ok hassign
        cases hfilter
        cases hassign
        simp
    rw [hsize]
    exact (hrounds.allotted h).nonempty

/-! ## The frame -/

/-- Completing the frame leaves the word range: the frame with the saved registers does, or the place of a stack
parameter. -/
inductive FrameOverflow (mf : MachineFunction) : Prop
  | size (h : Word.add? mf.frameSize (Int32.ofNat (4 * mf.registersToSave.length)) = none)
  | parameter {fixup offset : Word} {dst base : Operand}
      (hsize : Word.add? mf.frameSize (Int32.ofNat (4 * mf.registersToSave.length)) = some fixup)
      (hload : Instr.load dst base offset true ∈ mf.placedInsts) (h : Word.add? offset fixup = none)

/-- Closing returns brings in no load of a stack parameter. -/
theorem eq_of_mem_closeReturn {isMain : Bool} {frame offset : Word} (h : Instr.load dst base offset true ∈
      MachineFunction.closeReturn isMain (MachineFunction.epilogue saved frame savedBytes) i) :
    i = .load dst base offset true := by
  have hending : Instr.load dst base offset true ∉ MachineFunction.epilogue saved frame savedBytes := by
    unfold MachineFunction.epilogue
    rw [List.mem_append, List.mem_append]
    rintro ((h | h) | h)
    · split at h <;> simp [MachineFunction.adjustSp] at h
    · simp at h
    · split at h <;> simp [MachineFunction.adjustSp] at h
  cases i with
  | ret usesV0 =>
    rw [MachineFunction.closeReturn] at h
    cases isMain with
    | true => simp at h
    | false => exact absurd (List.mem_append.1 h) (not_or.2 ⟨hending, by simp⟩)
  | _ => exact (List.mem_singleton.1 h).symm

/-- The instructions that open a function load no stack parameter. -/
theorem not_mem_prologue {frame offset : Word} :
    Instr.load dst base offset true ∉ MachineFunction.prologue saved frame savedBytes := by
  unfold MachineFunction.prologue
  rw [List.mem_append]
  rintro (h | h)
  · split at h <;> simp [MachineFunction.adjustSp] at h
  · split at h <;> simp [MachineFunction.adjustSp] at h

/-- Completing the frame of an allocated function fails only because something leaves the word range. -/
theorem finalizeFrame_total (hsize : 0 < mf.blocks.size)
    (hvirtual : ∀ i ∈ mf.placedInsts, ∀ op ∈ i.mentions, op.virtual? = none) :
    FailsOnly (fun e => e = .crash none ∧ FrameOverflow mf) finalizeFrame mf := by
  have hnone : (mf.placedInsts.find? fun i => i.mentions.any fun op => op.virtual?.isSome) = none := by
    refine List.find?_eq_none.2 fun i hi hany => ?_
    obtain ⟨op, hop, hsome⟩ := List.any_eq_true.1 hany
    rw [hvirtual i hi op hop] at hsome
    cases hsome
  have hblocks : mf.blocks.isEmpty = false := by
    rw [Array.isEmpty_eq_false_iff]
    exact Array.ne_empty_of_size_pos hsize
  unfold finalizeFrame
  refine failsOnly_bind (.ok _) fun mf₁ mf₂ hget => ?_
  cases hget
  rw [hnone]
  dsimp only
  rw [hblocks, Bool.false_and, if_neg Bool.false_ne_true]
  refine failsOnly_bind (failsOnly_ask (.ofOption fun hadd => ⟨rfl, .size hadd⟩)) fun fixup mf₄ hask => ?_
  obtain ⟨hfixup, rfl⟩ := ask_eq_ok hask
  have hfixup' := Outcome.ofOption_eq_ok.1 hfixup
  refine failsOnly_bind (failsOnly_ask (.mapM fun p hp => .bind (.mapM fun i hi => ?_) fun _ _ => .ok _))
    fun _ _ _ => .ok _
  -- Only the place of a stack parameter is computed, and the parameter was loaded before.
  obtain ⟨j, hj, hij⟩ := List.mem_flatMap.1 hi
  cases i with
  | load dst base offset incoming =>
    cases incoming with
    | false => exact .ok _
    | true =>
      obtain rfl := eq_of_mem_closeReturn hij
      have hin : Instr.load dst base offset true ∈ p.1.insts := by
        rcases List.mem_append.1 hj with hj | hj
        · split at hj
          · exact absurd hj not_mem_prologue
          · cases hj
        · exact hj
      exact .bind (.ofOption fun hadd => ⟨rfl, .parameter hfixup'
        (List.mem_flatMap.2 ⟨p.1, List.fst_mem_of_mem_zipIdx hp, hin⟩) hadd⟩) fun _ _ => .ok _
  | _ => exact .ok _

end MachineEdit

end SsaCompiler
