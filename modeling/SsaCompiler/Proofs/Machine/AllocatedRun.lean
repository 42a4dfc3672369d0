import SsaCompiler.Proofs.Machine.SpilledRun
import Mathlib

/-!
# Running allocated code

Allocation is a sequence of rounds. A round that spills goes on with a function that runs like the one
before for an observer who does not see the new words; the last round gives every virtual register a
register of the budget. So the allocated function runs like the function itself, the words of the
spilled registers apart. Three runs show that the stack pointer has to stand still, that callees have to
leave those words alone, and that a block without an exit can run into one that needs more registers.

The words of the spilled registers lie behind the frame of the function, four bytes each, and no two of
them are the same, because the size of the frame does not leave the word range.
-/

set_option autoImplicit false

namespace SsaCompiler

open Edits

/-- The words of a number of spilled registers, from an address on, the last one first. -/
def spillWords (first : Word) : Nat → List Word
  | 0 => []
  | count + 1 => (first + Int32.ofNat (4 * count)) :: spillWords first count

variable {count : Nat} {first : Word}

/-- The words of fewer registers are among those of more. -/
theorem mem_spillWords {k : Nat} (h : k < count) : first + Int32.ofNat (4 * k) ∈ spillWords first count := by
  induction count with
  | zero => omega
  | succ count ih =>
    rw [spillWords, List.mem_cons]
    by_cases hk : k = count
    · exact .inl (by rw [hk])
    · exact .inr (ih (by omega))

/-- Every such word is some words behind the first one. -/
theorem exists_of_mem_spillWords {a : Word} (h : a ∈ spillWords first count) :
    ∃ k, k < count ∧ a = first + Int32.ofNat (4 * k) := by
  induction count with
  | zero => cases h
  | succ count ih =>
    rw [spillWords, List.mem_cons] at h
    rcases h with rfl | h
    · exact ⟨count, by omega, rfl⟩
    · obtain ⟨k, hk, rfl⟩ := ih h
      exact ⟨k, by omega, rfl⟩

/-- A new word is not among those before it while offsets stay in the word range. -/
theorem not_mem_spillWords (h : 4 * count < 2 ^ 32) : first + Int32.ofNat (4 * count) ∉ spillWords first count := by
  intro hmem
  obtain ⟨k, hk, heq⟩ := exists_of_mem_spillWords hmem
  have hoff : Int32.ofNat (4 * count) = Int32.ofNat (4 * k) := (Int32.add_right_inj _).1 heq
  have hbits := congrArg (fun x : Int32 => x.toBitVec.toNat) hoff
  simp only [Int32.toBitVec_ofNat', BitVec.toNat_ofNat] at hbits
  omega

/-- A sum of words that stays in the word range is the plain sum. -/
theorem Word.add?_eq_some {a b c : Word} (h : Word.add? a b = some c) : c = a + b ∧ c.toInt = a.toInt + b.toInt := by
  unfold Word.add? Word.ofInt? at h
  split at h
  · rename_i hrange
    obtain rfl := Option.some.inj h
    simp only [Word.inRange, Bool.and_eq_true, decide_eq_true_eq] at hrange
    refine ⟨?_, Int32.toInt_ofInt_of_le ?_ ?_⟩
    · rw [Int32.ofInt_add, Int32.ofInt_toInt, Int32.ofInt_toInt]
    · simpa [Word.minInt] using hrange.1
    · have := hrange.2
      unfold Word.maxInt at this
      omega
  · cases h

namespace MachineEdit

variable {α β : Type} {mf mf' : MachineFunction}

/-- A question leaves the function as it is. -/
theorem run_ask (question : MachineFunction → Outcome α) (mf : MachineFunction) :
    (ask question).run mf = (question mf, mf) := by
  have hget : (get : MachineEdit MachineFunction).run mf = (.ok mf, mf) := rfl
  rw [ask, run_bind, hget]
  dsimp only
  cases question mf <;> rfl

variable {vregs : List Nat} {question : MachineFunction → Outcome α}
variable {r : Sum (List Register × Interference) (List Nat)}

/-- The answer to a question. -/
theorem ask_eq_ok {a : α} (h : (ask question).run mf = (.ok a, mf')) : question mf = .ok a ∧ mf = mf' := by
  rw [run_ask] at h
  exact Prod.mk.inj h

/-- The answer to a question, and what is done with it. -/
theorem ask_bind_eq_ok {next : α → MachineEdit β} {b : β} (h : (ask question >>= next).run mf = (.ok b, mf')) :
    ∃ a, question mf = .ok a ∧ (next a).run mf = (.ok b, mf') := by
  obtain ⟨a, mf₁, hask, hrest⟩ := bind_eq_ok h
  obtain ⟨ha, rfl⟩ := ask_eq_ok hask
  exact ⟨a, ha, hrest⟩

/-- An edit that asks a question first. -/
theorem run_ask_bind (question : MachineFunction → Outcome α) {a : α} (h : question mf = .ok a)
    (next : α → MachineEdit β) : (ask question >>= next).run mf = (next a).run mf := by
  rw [run_bind, run_ask, h]

/-- A virtual register that a round may give up: one that the code mentions and that is no spill temporary. -/
structure Spillable (mf : MachineFunction) (v : Nat) : Prop where
  counted : v < mf.vregCount
  plain : mf.spillTemps.contains v = false
  mentioned : ∃ i ∈ mf.placedInsts, Operand.virtual v ∈ i.sources ∨ Operand.virtual v ∈ i.defs

/-- What a round finds out. -/
def Found (mf : MachineFunction) (budget : RegisterSet) :
    Sum (List Register × Interference) (List Nat) → Prop
  | .inl (registers, graph) => Separates mf budget registers ∧
    ∀ x d, graph.adjacent x d = true →
      ∃ r r', nodeRegister? registers x = some r ∧ nodeRegister? registers d = some r' ∧ r ≠ r'
  | .inr vregs => vregs ≠ [] ∧ ∀ v ∈ vregs, Spillable mf v

variable {budget : RegisterSet}

/-- The registers of a round that spills can be spilled. -/
theorem Found.spillable (h : Found mf budget (.inr vregs)) :
    ∀ v ∈ vregs, v < mf.vregCount ∧ mf.spillTemps.contains v = false :=
  fun v hv => ⟨(h.2 v hv).counted, (h.2 v hv).plain⟩

/-- What a round does when it comes to an end. -/
theorem colorRound_eq_ok (h : (colorRound budget).run mf = (.ok r, mf')) :
    mf' = mf ∧ ∃ l g spilled c, Liveness.ofFunction mf budget = .ok l ∧
      Interference.ofFunction mf budget l = .ok g ∧
      Coloring.assignColors mf.name (Coloring.start mf budget g).run.stack .empty
        (Coloring.start mf budget g).run = .ok (spilled, c) ∧
      ((spilled.isEmpty = true ∧ ∃ registers, c.assignment mf.name = .ok registers ∧ r = .inl (registers, c.graph)) ∨
        spilled.isEmpty = false ∧ r = .inr (spilled.toList.map (· - Node.firstVirtual))) := by
  unfold colorRound at h
  obtain ⟨l, hl, h₁⟩ := ask_bind_eq_ok h
  obtain ⟨g, hg, h₂⟩ := ask_bind_eq_ok h₁
  have h₃ := of_get_bind h₂
  obtain ⟨⟨spilled, c⟩, hcolors, h₄⟩ := ask_bind_eq_ok h₃
  dsimp only at h₄
  split at h₄
  · rename_i hempty
    obtain ⟨registers, hassign, h₅⟩ := ask_bind_eq_ok h₄
    cases h₅
    exact ⟨rfl, l, g, spilled, c, hl, hg, hcolors, .inl ⟨hempty, registers, hassign, rfl⟩⟩
  · rename_i hsome
    cases h₄
    exact ⟨rfl, l, g, spilled, c, hl, hg, hcolors, .inr ⟨Bool.eq_false_iff.2 hsome, rfl⟩⟩

/-- A function whose graph could be built has all its virtual registers counted. -/
theorem counted_of_ofFunction {l : Liveness} {g : Interference} (hl : Liveness.ofFunction mf budget = .ok l)
    (hg : Interference.ofFunction mf budget l = .ok g) : mf.Counted := by
  obtain ⟨-, hknown, -⟩ := Interference.ofFunction_spec (Liveness.sound_of_ofFunction hl) hg
  intro i hi n hn
  have hnode : Node.firstVirtual + n < Interference.nodeCount mf := by
    refine hknown i hi _ (List.mem_append.2 ?_)
    rcases hn with hn | hn
    · exact .inr (Instr.mem_useNodes_virtual.2 hn)
    · exact .inl (Instr.mem_defNodes_virtual.2 hn)
  exact Nat.lt_of_add_lt_add_left hnode

/-- The virtual registers that a round gives up are mentioned ones that are no temporaries, each named once. -/
theorem spillable_of_colorRound (hbudget : 0 < budget.size) (h : (colorRound budget).run mf = (.ok (.inr vregs), mf')) :
    vregs ≠ [] ∧ vregs.Nodup ∧ ∀ v ∈ vregs, Spillable mf v := by
  obtain ⟨-, l, g, spilled, c, hl, hg, hcolors, ⟨-, _, -, hr⟩ | ⟨hsome, hr⟩⟩ := colorRound_eq_ok h
  · cases hr
  obtain rfl := Sum.inr.inj hr
  obtain ⟨hbuilt, -, -⟩ := Interference.ofFunction_spec (Liveness.sound_of_ofFunction hl) hg
  obtain ⟨hrun, hgrows⟩ := Coloring.sound_run mf hbuilt (Nat.le_add_right _ _) hbudget
  obtain ⟨hplan, hspilled⟩ := Coloring.assignColors_spec hrun.classes (hgrows.budget ▸ hbudget) (fun _ hn => hn)
    (Coloring.SamePlan.refl _) hcolors
  have hgiven : ∀ k ∈ spilled.toList, (Coloring.start mf budget g).run.Dispensable k := by
    intro k hk
    refine (hspilled k (NatSet.mem_toList.1 hk)).resolve_left fun hin => ?_
    rw [NatSet.contains_empty] at hin
    cases hin
  refine ⟨fun hnil => Bool.noConfusion (hsome.symm.trans (NatSet.isEmpty_iff.2 fun k => ?_)), ?_, fun v hv => ?_⟩
  · rw [List.map_eq_nil_iff] at hnil
    exact Bool.not_eq_true _ ▸ fun hk => List.not_mem_nil (hnil ▸ NatSet.mem_toList.2 hk)
  · refine (List.nodup_map_iff_inj_on (NatSet.nodup_toList spilled)).2 fun x hx y hy heq => ?_
    have hvx := (hgiven x hx).virtual
    have hvy := (hgiven y hy).virtual
    omega
  · obtain ⟨k, hk, rfl⟩ := List.mem_map.1 hv
    obtain ⟨hvirtual, hlt, htemp, hwithin⟩ := hgiven k hk
    rw [← hplan.size, Coloring.size_of_round hbudget hl hg hcolors, Interference.nodeCount] at hlt
    rw [hgrows.temps] at htemp
    refine ⟨by omega, ?_, ?_⟩
    · have hshift := NatSet.contains_shift mf.spillTemps.mask Node.firstVirtual k
      rw [decide_eq_true hvirtual, Bool.true_and] at hshift
      exact hshift.symm.trans htemp
    · obtain ⟨i, hi, hmem⟩ := hwithin _ (hgrows.confined _ (Coloring.confined_unlisted mf budget
        (Interference.ofFunction_within (Liveness.sound_of_ofFunction hl) hg)))
      rw [← Nat.add_sub_cancel' hvirtual, List.mem_append] at hmem
      exact ⟨i, hi, hmem.symm.imp Instr.mem_useNodes_virtual.1 Instr.mem_defNodes_virtual.1⟩

/-- A round does not change the function, and it either keeps apart what is live at the same time or
names registers that can be spilled. -/
theorem colorRound_spec (htail : mf.TailLocal budget) (hbudget : 0 < budget.size)
    (h : (colorRound budget).run mf = (.ok r, mf')) : mf' = mf ∧ mf.Counted ∧ Found mf budget r := by
  obtain ⟨hmf, l, g, spilled, c, hl, hg, hcolors, hresult⟩ := colorRound_eq_ok h
  refine ⟨hmf, counted_of_ofFunction hl hg, ?_⟩
  rcases hresult with ⟨hempty, registers, hassign, rfl⟩ | ⟨-, rfl⟩
  · exact Coloring.separates_of_round hbudget hl hg hcolors htail hempty hassign
  · obtain ⟨hne, -, hspillable⟩ := spillable_of_colorRound hbudget h
    exact ⟨hne, hspillable⟩

/-- Assigning registers does the same to every block. -/
theorem applyAssignment_spec {registers : List Register} {idle : Nat}
    (h : (applyAssignment registers.toArray).run mf = (.ok idle, mf')) : mf'.blocks.size = mf.blocks.size ∧
      ∀ b, mf'.instsOf b = AssignedRun.assignedCode registers (mf.instsOf b) := by
  unfold applyAssignment at h
  obtain ⟨⟨⟩, mf₁, hmap, h⟩ := bind_eq_ok h
  cases hmap
  have h := of_get_bind h
  split at h
  · cases h
  · obtain ⟨⟨⟩, mf₄, hfilter, h⟩ := bind_eq_ok h
    cases hfilter
    cases h
    refine ⟨by simp, fun b => ?_⟩
    unfold MachineFunction.instsOf MachineFunction.block AssignedRun.assignedCode
    simp only [Array.getD_eq_getD_getElem?, Array.getElem?_map, Option.map_map]
    cases mf.blocks[b]? with
    | none => rfl
    | some d => rfl

/-- With registers to hand out and a number of rounds, allocation is those rounds. -/
theorem run_allocate (h : budget.isEmpty = false) (cap : Nat) (mf : MachineFunction) :
    (allocate budget (some cap)).run mf = (allocateWithin budget cap cap 1 0).run mf := by
  unfold allocate
  rw [run_bind, h]
  rfl

/-- The number of spilled registers grows from round to round. -/
theorem spilled_le {cap : Nat} {limit : Nat} : ∀ {mf mf' : MachineFunction} {round spilled : Nat} {a : Allocation},
      (allocateWithin budget cap limit round spilled).run mf = (.ok a, mf') → spilled ≤ a.spilled := by
  induction limit with
  | zero =>
    intro mf mf' round spilled a h
    obtain ⟨mf₁, mf₂, -, h₁⟩ := bind_eq_ok h
    cases h₁
  | succ limit ih =>
    intro mf mf' round spilled a h
    unfold allocateWithin at h
    obtain ⟨r, mf₁, -, h₁⟩ := bind_eq_ok h
    cases r with
    | inl found =>
      obtain ⟨idle, mf₂, -, h₂⟩ := bind_eq_ok h₁
      cases h₂
      exact Nat.le_refl _
    | inr vregs =>
      obtain ⟨⟨⟩, mf₂, -, h₂⟩ := bind_eq_ok h₁
      exact (Nat.le_add_right _ _).trans (ih h₂)

end MachineEdit

/-! ## Rounds that spill -/

namespace AllocatedRun

variable {W : Type} {env : MachineEnv W} {mf₀ mf mf' : MachineFunction} {budget : RegisterSet}
  {regs : Register → Word} {vregs : Nat → Word} {m : Memory} {w : W}

variable {hidden : List Word} {total : Nat}

/-- An event that is not visible touches a hidden word only. -/
theorem touched_of_hidden {e : MachineEvent} (h : e.isOutside hidden = false) : ∃ a ∈ hidden, e.touched = [a] := by
  cases e with
  | load a v | store a v =>
    rw [MachineEvent.isOutside, Bool.not_eq_false'] at h
    exact ⟨a, List.contains_iff_mem.1 h, rfl⟩
  | incoming | call | syscall => cases h

/-- A word that a run leaves alone is left alone by all runs that differ from it in other words. -/
theorem untouched_of_sameRuns {word : Word} {s s' : MachineState W}
    (h : Runs.SameRuns (mf.step env) s (Runs.observe (MachineEvent.isOutside hidden) (mf'.step env)) s')
    (hword : word ∉ hidden) (hunt : Untouched (mf.step env) word s) : Untouched (mf'.step env) word s' := by
  constructor
  · intro t hperf e he
    have hseen : Runs.Performs (mf.step env) s (t.filter (MachineEvent.isOutside hidden)) :=
      (h.performs_iff _).2 (Runs.performs_observe_iff.2 ⟨t, hperf, List.prefix_rfl⟩)
    cases hvis : e.isOutside hidden with
    | true => exact hunt.performs _ hseen e (List.mem_filter.2 ⟨he, hvis⟩)
    | false =>
      obtain ⟨a, ha, htouched⟩ := touched_of_hidden hvis
      rw [htouched, List.mem_singleton]
      rintro rfl
      exact hword ha
  · intro t e hend
    exact hunt.halted _ e ((h.ends_iff _ _).2 (Runs.ends_observe_iff.2 ⟨t, hend, rfl⟩))

/-- The function after some registers were spilled. -/
structure Spilling (env : MachineEnv W) (mf₀ : MachineFunction) (budget : RegisterSet)
    (regs : Register → Word) (vregs : Nat → Word) (m : Memory) (w : W) (mf : MachineFunction)
    (count : Nat) : Prop where
  allocatable : mf.Allocatable budget
  frame : mf.frameSize = mf₀.frameSize + Int32.ofNat (4 * count)
  inRange : mf.frameSize.toInt = mf₀.frameSize.toInt + 4 * count
  runs : Runs.SameRuns (mf₀.step env) (mf₀.start regs vregs m w)
    (Runs.observe (MachineEvent.isOutside (spillWords (regs .sp + mf₀.frameSize) count)) (mf.step env))
    (mf.start regs vregs m w)

/-- Before the first round nothing is spilled. -/
theorem Spilling.zero (h : mf₀.Allocatable budget) : Spilling env mf₀ budget regs vregs m w mf₀ 0 := by
  refine ⟨h, (Int32.add_zero _).symm, (Int.add_zero _).symm, ?_⟩
  rw [Runs.observe_of_visible fun e => by cases e <;> rfl]
  exact Runs.SameRuns.refl _ _

section

variable (h : Spilling env mf₀ budget regs vregs m w mf count)

include h

/-- The next word is behind the ones before it. -/
theorem Spilling.next_word : regs .sp + mf.frameSize = regs .sp + mf₀.frameSize + Int32.ofNat (4 * count) := by
  rw [h.frame, Int32.add_assoc]

/-- There is room for one more word. -/
theorem Spilling.room : 4 * count < 2 ^ 32 := by
  have hlow := mf₀.frameSize.le_toInt
  have hhigh := mf.frameSize.toInt_lt
  have hrange := h.inRange
  omega

/-- One more register is spilled. -/
theorem Spilling.spill {v : Nat} (henv : env.Respects (spillWords (regs .sp + mf₀.frameSize) total))
    (hunt : ∀ a ∈ spillWords (regs .sp + mf₀.frameSize) total,
      Untouched (mf₀.step env) a (mf₀.start regs vregs m w)) (htotal : count < total) (hcount : mf.Counted)
    (hv : v < mf.vregCount) (hs : Spilled True mf v mf') :
    Spilling env mf₀ budget regs vregs m w mf' (count + 1) := by
  have hmem : regs .sp + mf₀.frameSize + Int32.ofNat (4 * count) ∈
      spillWords (regs .sp + mf₀.frameSize) total := mem_spillWords htotal
  obtain ⟨hframe, hinRange⟩ := Word.add?_eq_some hs.frame
  have hfour : (4 : Word).toInt = 4 := rfl
  refine ⟨h.allocatable.spilled hcount hv hs, ?_, ?_, ?_⟩
  · rw [hframe, h.frame, Int32.add_assoc, Nat.mul_add, Int32.ofNat_add]
    rfl
  · rw [hinRange, h.inRange, hfour]
    push_cast
    omega
  · rw [spillWords, ← h.next_word]
    rw [← h.next_word] at hmem
    refine h.runs.trans (SpilledRun.sameRuns_spilled henv h.allocatable hcount hv hs regs vregs m w hmem ?_ _)
    refine untouched_of_sameRuns h.runs ?_ (hunt _ hmem)
    rw [h.next_word]
    exact not_mem_spillWords h.room

end

/-- All registers of a round are spilled. -/
theorem Spilling.spillAll (henv : env.Respects (spillWords (regs .sp + mf₀.frameSize) total))
    (hunt : ∀ a ∈ spillWords (regs .sp + mf₀.frameSize) total,
      Untouched (mf₀.step env) a (mf₀.start regs vregs m w)) (list : List Nat) :
    ∀ {mf : MachineFunction} {count : Nat}, Spilling env mf₀ budget regs vregs m w mf count →
      mf.Counted → (∀ v ∈ list, v < mf.vregCount ∧ mf.spillTemps.contains v = false) →
      count + list.length ≤ total →
      (list.forM fun v => do let mf ← MachineEdit.ask (·.spill v); set mf : MachineEdit Unit).run mf =
        (.ok (), mf') →
      Spilling env mf₀ budget regs vregs m w mf' (count + list.length) := by
  induction list with
  | nil =>
    intro mf count h _ _ _ hrun
    cases hrun
    exact h
  | cons v rest ih =>
    intro mf count h hcount hlist htotal hrun
    rw [List.length_cons] at htotal ⊢
    obtain ⟨hv, hplain⟩ := hlist v List.mem_cons_self
    obtain ⟨⟨⟩, mf₁, hfirst, hrest⟩ := bind_eq_ok hrun
    obtain ⟨mf₂, hspill, hset⟩ := MachineEdit.ask_bind_eq_ok hfirst
    cases hset
    have hs : Spilled True mf v mf₁ := spilled_of_spill hspill fun b _ => h.allocatable.tail.tailDefs_ne hplain b
    have hnext := h.spill henv hunt (by omega) hcount hv hs
    have hlast := ih hnext (hcount.spilled hs) (fun u hu => ?_) (by omega) hrest
    · rwa [Nat.add_right_comm, Nat.add_assoc] at hlast
    · obtain ⟨hu, hplain'⟩ := hlist u (List.mem_cons_of_mem _ hu)
      exact ⟨hu.trans_le hs.count, (hs.old u hu).trans hplain'⟩

/-- Rounds of allocation keep what an observer of all other words sees. -/
theorem Spilling.allocateWithin {cap limit : Nat} (hbudget : budget.IsGeneral) (hsize : 0 < budget.size)
    {a : Allocation} (henv : env.Respects (spillWords (regs .sp + mf₀.frameSize) a.spilled))
    (hunt : ∀ word ∈ spillWords (regs .sp + mf₀.frameSize) a.spilled,
      Untouched (mf₀.step env) word (mf₀.start regs vregs m w)) (vregs' : Nat → Word) :
    ∀ {mf : MachineFunction} {round count : Nat}, Spilling env mf₀ budget regs vregs m w mf count →
      (MachineEdit.allocateWithin budget cap limit round count).run mf = (.ok a, mf') →
      Runs.SameRuns (mf₀.step env) (mf₀.start regs vregs m w)
        (Runs.observe (MachineEvent.isOutside (spillWords (regs .sp + mf₀.frameSize) a.spilled))
          (mf'.step env)) (mf'.start regs vregs' m w) := by
  induction limit with
  | zero =>
    intro mf round count _ hrun
    obtain ⟨mf₁, mf₂, -, h₁⟩ := bind_eq_ok hrun
    cases h₁
  | succ limit ih =>
    intro mf round count h hrun
    unfold MachineEdit.allocateWithin at hrun
    obtain ⟨r, mf₁, hround, h₁⟩ := bind_eq_ok hrun
    obtain ⟨hmf, hcount, hfound⟩ := MachineEdit.colorRound_spec h.allocatable.tail.tailLocal hsize hround
    subst mf₁
    cases r with
    | inl found =>
      obtain ⟨idle, mf₂, hassign, h₂⟩ := bind_eq_ok h₁
      cases h₂
      obtain ⟨hblocks, hinsts⟩ := MachineEdit.applyAssignment_spec hassign
      have hsame : Runs.SameRuns (mf.step env) (mf.start regs vregs m w) (mf'.step env)
          (mf'.start regs vregs' m w) :=
        AssignedRun.sameRuns_assigned hbudget hfound.1 h.allocatable.first h.allocatable.exits hblocks hinsts regs vregs
          vregs' m w
      exact h.runs.trans (hsame.observe _)
    | inr list =>
      obtain ⟨⟨⟩, mf₂, hspill, h₂⟩ := bind_eq_ok h₁
      exact ih (Spilling.spillAll henv hunt list h hcount hfound.spillable (MachineEdit.spilled_le h₂) hspill) h₂

end AllocatedRun

/-- **Allocating registers keeps what a function does.** The allocated function runs like the function
itself for an observer who sees everything but loads and stores of the words of the spilled registers,
if every block of it has an exit, no instruction of it writes the stack pointer, and it leaves those
words alone and so do its callees and the system. -/
theorem MachineEdit.sameRuns_allocate {W : Type} (env : MachineEnv W) (mf mf' : MachineFunction)
    (budget : RegisterSet) (maxRounds : Option Nat) (a : Allocation) (regs : Register → Word)
    (vregs vregs' : Nat → Word) (m : Memory) (w : W) (hbudget : budget.IsGeneral)
    (htransfers : mf.TransfersLast) (hfirst : mf.WritesBeforeReads budget) (hexits : mf.HasExits)
    (hsp : ∀ i ∈ mf.placedInsts, ∀ op ∈ i.defs, op.register? ≠ some .sp)
    (henv : env.Respects (spillWords (regs .sp + mf.frameSize) a.spilled))
    (hunt : ∀ word ∈ spillWords (regs .sp + mf.frameSize) a.spilled,
      Untouched (mf.step env) word (mf.start regs vregs m w))
    (h : (allocate budget maxRounds).run mf = (.ok a, mf')) :
    Runs.SameRuns (mf.step env) (mf.start regs vregs m w)
      (Runs.observe (MachineEvent.isOutside (spillWords (regs .sp + mf.frameSize) a.spilled))
        (mf'.step env)) (mf'.start regs vregs' m w) := by
  unfold allocate at h
  have h₁ := of_get_bind h
  cases hempty : budget.isEmpty with
  | true =>
    rw [hempty] at h₁
    cases h₁
  | false =>
    rw [hempty] at h₁
    have hzero : AllocatedRun.Spilling env mf budget regs vregs m w mf 0 :=
      .zero (htransfers.allocatable hfirst hexits hsp)
    exact hzero.allocateWithin hbudget (RegisterSet.size_pos hempty) henv hunt vregs' h₁

/-! ## A function that needs a spill -/

namespace AllocatedRun

/-- A function that keeps one value while it computes another one and calls with it. -/
def twoValues : MachineFunction :=
  { name := "f", isMain := false, returnsValue := true, vregCount := 2
    blocks := #[{ label := "f_b0", loopDepth := 0, insts := [
      .move (.virtual 0) (.immediate 1), .move (.virtual 1) (.immediate 2),
      .move (.fixed .a0) (.virtual 1), .call "g" 1 0, .binary .addu .v0 .v0 (.virtual 0),
      .ret true] }] }

/-- The function with its first value in a word of the frame. -/
def twoValuesSpilled : MachineFunction :=
  { twoValues with
    vregCount := 4, spillTemps := ⟨12⟩, frameSize := 4
    blocks := #[{ label := "f_b0", loopDepth := 0, insts := [
      .move (.virtual 2) (.immediate 1), .store (.virtual 2) .sp 0,
      .move (.virtual 1) (.immediate 2), .move (.fixed .a0) (.virtual 1), .call "g" 1 0,
      .load (.virtual 3) .sp 0 false, .binary .addu .v0 .v0 (.virtual 3), .ret true] }] }

/-- A single register. -/
def oneRegister : RegisterSet := .firstGeneral 1

/-- Callees that return the argument and leave memory alone. -/
def echo : MachineEnv Unit where
  address _ := none
  incoming _ := 0
  call _ regs _ m w := some (m, fun _ => regs .a0, w)
  syscall _ m w := some (0, m, w)

/-- The liveness of a single block that reads nothing from before it. -/
def oneBlock (written : Nat) : Liveness :=
  { effects := #[{ defs := ⟨written⟩ }], liveIn := #[.empty], liveOut := #[.empty], rounds := 1 }

/-- The live nodes of the function. -/
theorem liveness_twoValues : Liveness.ofFunction twoValues oneRegister = .ok (oneBlock (3 <<< 32)) := by
  cbv

/-- The live nodes of the function with a spilled register. -/
theorem liveness_twoValuesSpilled : Liveness.ofFunction twoValuesSpilled oneRegister = .ok (oneBlock (14 <<< 32)) := by
  cbv

/-- What a round answers, the graph apart. -/
theorem exists_colorRound {mf : MachineFunction} {budget : RegisterSet} {answer : Sum (List Register) (List Nat)}
    (h : ((MachineEdit.colorRound budget).run mf).1.toOption.map (Sum.map Prod.fst id) = some answer) :
    ∃ r, (MachineEdit.colorRound budget).run mf = (.ok r, mf) ∧ Sum.map Prod.fst id r = answer := by
  rcases hr : (MachineEdit.colorRound budget).run mf with ⟨r | r, mf'⟩
  · rw [hr] at h
    cases h
  · obtain ⟨rfl, -⟩ := MachineEdit.colorRound_eq_ok hr
    rw [hr] at h
    exact ⟨r, rfl, Option.some.inj h⟩

/-- A round that gives up one register goes on with the spilled function. -/
theorem allocateWithin_of_spill {mf mf₁ : MachineFunction} {budget : RegisterSet} {v : Nat} (cap limit round spilled : Nat)
    (hround : ((MachineEdit.colorRound budget).run mf).1.toOption.map (Sum.map Prod.fst id) = some (.inr [v]))
    (hspill : mf.spill v = .ok mf₁) : (MachineEdit.allocateWithin budget cap (limit + 1) round spilled).run mf =
      (MachineEdit.allocateWithin budget cap limit (round + 1) (spilled + 1)).run mf₁ := by
  obtain ⟨_ | list, hr, hlist⟩ := exists_colorRound hround
  · cases hlist
  · obtain rfl := Sum.inr.inj hlist
    have hfirst : ([v].forM fun v => do
        let mf ← MachineEdit.ask (·.spill v)
        set mf : MachineEdit Unit).run mf = (.ok (), mf₁) := by
      change ((MachineEdit.ask (·.spill v) >>= fun mf => set mf) >>= fun _ => pure () : MachineEdit Unit).run mf = _
      rw [run_bind, MachineEdit.run_ask_bind (·.spill v) hspill]
      rfl
    rw [MachineEdit.allocateWithin, run_bind, hr]
    dsimp only
    rw [run_bind, hfirst]
    rfl

/-- A round that finds registers is the last one. -/
theorem allocateWithin_of_found {mf mf' : MachineFunction} {budget : RegisterSet} (registers : List Register)
    (idle cap limit round spilled : Nat)
    (hround : ((MachineEdit.colorRound budget).run mf).1.toOption.map (Sum.map Prod.fst id) = some (.inl registers))
    (hassign : ((MachineEdit.applyAssignment registers.toArray).run mf).1.toOption = some idle)
    (hresult : ((MachineEdit.applyAssignment registers.toArray).run mf).2 = mf') :
    ∃ a, (MachineEdit.allocateWithin budget cap (limit + 1) round spilled).run mf = (.ok a, mf') ∧ a.spilled = spilled := by
  obtain ⟨⟨registers, graph⟩ | _, hr, hregisters⟩ := exists_colorRound hround
  · obtain rfl := Sum.inl.inj hregisters
    refine ⟨⟨round, spilled, idle, registers, graph.edges⟩, ?_, rfl⟩
    rcases happly : (MachineEdit.applyAssignment registers.toArray).run mf with ⟨e | k, mf₁⟩
    · rw [happly] at hassign
      cases hassign
    · rw [happly] at hassign hresult
      obtain rfl : k = idle := Option.some.inj hassign
      rw [MachineEdit.allocateWithin, run_bind, hr]
      dsimp only
      rw [run_bind, happly, ← hresult]
      rfl
  · cases hregisters

/-- The first round gives up the first value. -/
theorem answer_twoValues : ((MachineEdit.colorRound oneRegister).run twoValues).1.toOption.map (Sum.map Prod.fst id) =
    some (.inr [0]) := by
  unfold MachineEdit.colorRound
  rw [MachineEdit.run_ask_bind (Liveness.ofFunction · oneRegister) liveness_twoValues]
  with_unfolding_all rfl

/-- The first round gives up the first value. -/
theorem firstRound_twoValues : (MachineEdit.colorRound oneRegister).run twoValues = (.ok (.inr [0]), twoValues) := by
  obtain ⟨_ | list, hr, hlist⟩ := exists_colorRound answer_twoValues
  · cases hlist
  · obtain rfl := Sum.inr.inj hlist
    exact hr

/-- The function with its values in the register. -/
def twoValuesAllocated : MachineFunction :=
  { twoValuesSpilled with
    blocks := #[{ label := "f_b0", loopDepth := 0, insts := [
      .move (.allocated .t0) (.immediate 1), .store (.allocated .t0) .sp 0, .move (.allocated .t0) (.immediate 2),
      .move (.fixed .a0) (.allocated .t0), .call "g" 1 0, .load (.allocated .t0) .sp 0 false,
      .binary .addu .v0 .v0 (.allocated .t0), .ret true] }] }

/-- Spilling puts the first value into the frame. -/
theorem spill_twoValues : twoValues.spill 0 = .ok twoValuesSpilled := by
  with_unfolding_all rfl

/-- Allocation spills one of the two values. -/
theorem allocate_twoValues : ∃ a, (MachineEdit.allocate oneRegister (some 2)).run twoValues =
    (.ok a, twoValuesAllocated) ∧ a.spilled = 1 := by
  rw [MachineEdit.run_allocate (by decide), allocateWithin_of_spill 2 1 1 0 answer_twoValues spill_twoValues]
  refine allocateWithin_of_found [.t0, .t0, .t0, .t0] 0 2 0 2 1 ?_ ?_ ?_
  · unfold MachineEdit.colorRound
    rw [MachineEdit.run_ask_bind (Liveness.ofFunction · oneRegister) liveness_twoValuesSpilled]
    with_unfolding_all rfl
  all_goals with_unfolding_all rfl

/-- Where nothing is live at first, every register is written before it is read. -/
theorem writesBeforeReads_of_liveness {mf : MachineFunction} {budget : RegisterSet} {l : Liveness}
    (hl : Liveness.ofFunction mf budget = .ok l) (h : mf.TransfersLast)
    (hnone : l.here budget 0 (mf.instsOf 0) = .empty) : mf.WritesBeforeReads budget := by
  intro n hlive
  have hin := Liveness.contains_of_liveFrom (Liveness.sound_of_ofFunction hl) (h.tailLocal budget) hlive 0 [] rfl
  rw [hnone, NatSet.contains_empty] at hin
  cases hin

/-- The function writes its registers before it reads them. -/
theorem writesBeforeReads_twoValues (h : twoValues.TransfersLast) : twoValues.WritesBeforeReads oneRegister :=
  writesBeforeReads_of_liveness liveness_twoValues h rfl

/-- Nothing stands behind the return. -/
theorem transfersLast_twoValues : twoValues.TransfersLast :=
  .of_pairwise (by decide)

/-- The function touches no word of memory. -/
theorem untouched_twoValues (word : Word) : Untouched (twoValues.step echo) word
    (twoValues.start (fun _ => 0) (fun _ => 0) (fun _ => 0) ()) := by
  refine .of_ends (t := [.call "g" [2] []]) (o := .returned 3) (Runs.ends_of_outcome? (n := 7) rfl)
    (fun e he => ?_) fun e he => by cases he
  obtain rfl := List.mem_singleton.1 he
  exact List.not_mem_nil

/-- Such callees respect all words. -/
theorem respects_echo (words : List Word) : echo.Respects words where
  call _ _ _ _ _ _ hoff := .some ⟨hoff, fun _ _ => rfl, rfl⟩
  syscall _ _ _ _ hoff := .some ⟨rfl, hoff, fun _ _ => rfl, rfl⟩

end AllocatedRun

/-- The allocated function keeps the value across the call in a word of its frame, and nobody sees it. -/
theorem MachineEdit.sameRuns_allocate_twoValues :
    ∃ a mf', (allocate AllocatedRun.oneRegister (some 2)).run AllocatedRun.twoValues = (.ok a, mf') ∧
      a.spilled = 1 ∧
      Runs.SameRuns (AllocatedRun.twoValues.step AllocatedRun.echo)
        (AllocatedRun.twoValues.start (fun _ => 0) (fun _ => 0) (fun _ => 0) ())
        (Runs.observe (MachineEvent.isOutside (spillWords (0 + 0) a.spilled))
          (mf'.step AllocatedRun.echo)) (mf'.start (fun _ => 0) (fun _ => 0) (fun _ => 0) ()) := by
  obtain ⟨a, hrun, hspilled⟩ := AllocatedRun.allocate_twoValues
  refine ⟨a, _, hrun, hspilled, ?_⟩
  exact sameRuns_allocate AllocatedRun.echo AllocatedRun.twoValues _ AllocatedRun.oneRegister (some 2) a
    (fun _ => 0) (fun _ => 0) (fun _ => 0) (fun _ => 0) () (RegisterSet.isGeneral_firstGeneral 1)
    AllocatedRun.transfersLast_twoValues
    (AllocatedRun.writesBeforeReads_twoValues AllocatedRun.transfersLast_twoValues) (by decide) (by decide)
    (AllocatedRun.respects_echo _) (fun word _ => AllocatedRun.untouched_twoValues word) hrun

/-! ## What the conditions are for -/

namespace AllocatedRun

/-- Callees that fill memory with one word. -/
def overwriting : MachineEnv Unit :=
  { echo with call := fun _ regs _ _ w => some (fun _ => 77, fun _ => regs .a0, w) }

/-- A function that keeps one value while it computes another one and moves the stack pointer. -/
def movesSp : MachineFunction :=
  { twoValues with
    blocks := #[{ label := "f_b0", loopDepth := 0, insts := [
      .move (.virtual 0) (.immediate 1), .move (.virtual 1) (.immediate 2), .move .v0 (.virtual 1),
      .binary .addu .sp .sp (.immediate (-8)), .binary .addu .v0 .v0 (.virtual 0),
      .binary .addu .sp .sp (.immediate 8), .ret true] }] }

/-- The function with its first value in a word of the frame. -/
def movesSpSpilled : MachineFunction :=
  { twoValuesSpilled with
    blocks := #[{ label := "f_b0", loopDepth := 0, insts := [
      .move (.virtual 2) (.immediate 1), .store (.virtual 2) .sp 0, .move (.virtual 1) (.immediate 2),
      .move .v0 (.virtual 1), .binary .addu .sp .sp (.immediate (-8)), .load (.virtual 3) .sp 0 false,
      .binary .addu .v0 .v0 (.virtual 3), .binary .addu .sp .sp (.immediate 8), .ret true] }] }

/-- The function with its values in the register. -/
def movesSpAllocated : MachineFunction :=
  { twoValuesSpilled with
    blocks := #[{ label := "f_b0", loopDepth := 0, insts := [
      .move (.allocated .t0) (.immediate 1), .store (.allocated .t0) .sp 0, .move (.allocated .t0) (.immediate 2),
      .move .v0 (.allocated .t0), .binary .addu .sp .sp (.immediate (-8)), .load (.allocated .t0) .sp 0 false,
      .binary .addu .v0 .v0 (.allocated .t0), .binary .addu .sp .sp (.immediate 8), .ret true] }] }

/-- A function that falls through from its first block to the second one. -/
def fallsOn : MachineFunction :=
  { twoValues with
    blocks := #[
      { label := "f_b0", loopDepth := 0, insts := [
        .move (.virtual 0) (.immediate 1), .move (.virtual 1) (.immediate 2)] },
      { label := "f_b1", loopDepth := 0, insts := [.move .v0 (.virtual 0), .ret true] }] }

/-- The function with both values in one register. -/
def fallsOnAllocated : MachineFunction :=
  { twoValues with
    blocks := #[
      { label := "f_b0", loopDepth := 0, insts := [
        .move (.allocated .t0) (.immediate 1), .move (.allocated .t0) (.immediate 2)] },
      { label := "f_b1", loopDepth := 0, insts := [.move .v0 (.allocated .t0), .ret true] }] }

/-- A function as it is entered where every word of memory is the same. -/
def entered (mf : MachineFunction) : MachineState Unit := mf.start (fun _ => 0) (fun _ => 0) (fun _ => 77) ()

/-- With one register, allocation changes what a function shows, although the function writes its virtual registers
before it reads them, has only transfers behind transfers, and leaves the words of the spilled registers alone. -/
def Alters (env : MachineEnv Unit) (mf : MachineFunction) : Prop :=
  mf.TransfersLast ∧ mf.WritesBeforeReads oneRegister ∧
    ∃ a mf', (MachineEdit.allocate oneRegister (some 2)).run mf = (.ok a, mf') ∧
      (∀ word ∈ spillWords (0 + mf.frameSize) a.spilled, Untouched (mf.step env) word (entered mf)) ∧
      ¬ Runs.SameRuns (mf.step env) (entered mf)
        (Runs.observe (MachineEvent.isOutside (spillWords (0 + mf.frameSize) a.spilled)) (mf'.step env)) (entered mf')

/-- Allocation changes what a function shows when it changes the result. -/
theorem alters_of_returned {env : MachineEnv Unit} {mf mf' : MachineFunction} {l : Liveness} {t : List MachineEvent}
    {k : Nat} {x y : Word} (htransfers : mf.TransfersLast) (hl : Liveness.ofFunction mf oneRegister = .ok l)
    (hnone : l.here oneRegister 0 (mf.instsOf 0) = .empty)
    (hallocate : ∃ a, (MachineEdit.allocate oneRegister (some 2)).run mf = (.ok a, mf') ∧ a.spilled = k)
    (hrun : Runs.outcome? (mf.step env) 10 (entered mf) = some (t, .returned x)) (ht : ∀ e ∈ t, e.touched = [])
    (hrun' : (Runs.outcome? (Runs.observe (MachineEvent.isOutside (spillWords (0 + mf.frameSize) k)) (mf'.step env)) 10
      (entered mf')).map Prod.snd = some (.returned y)) (hne : x ≠ y) : Alters env mf := by
  obtain ⟨a, hallocate, rfl⟩ := hallocate
  refine ⟨htransfers, writesBeforeReads_of_liveness hl htransfers hnone, a, mf', hallocate, fun word _ => ?_, ?_⟩
  · refine .of_ends (Runs.ends_of_outcome? hrun) (fun e he hmem => ?_) fun e he => by cases he
    rw [ht e he] at hmem
    cases hmem
  · refine Runs.not_sameRuns_of_outcomes (congrArg (Option.map Prod.snd) hrun) hrun' fun heq => hne ?_
    cases heq
    rfl

/-- The live nodes of the function that moves the stack pointer, before and after spilling. -/
theorem liveness_movesSp : Liveness.ofFunction movesSp oneRegister = .ok (oneBlock (3 <<< 32)) ∧
    Liveness.ofFunction movesSpSpilled oneRegister = .ok (oneBlock (14 <<< 32)) := by
  constructor <;> cbv

/-- Spilling puts the first value into the frame. -/
theorem spill_movesSp : movesSp.spill 0 = .ok movesSpSpilled := by
  with_unfolding_all rfl

/-- Allocation spills the first value. -/
theorem allocate_movesSp : ∃ a, (MachineEdit.allocate oneRegister (some 2)).run movesSp = (.ok a, movesSpAllocated) ∧
    a.spilled = 1 := by
  rw [MachineEdit.run_allocate (by decide), allocateWithin_of_spill 2 1 1 0 ?_ spill_movesSp]
  · refine allocateWithin_of_found [.t0, .t0, .t0, .t0] 0 2 0 2 1 ?_ ?_ ?_
    · unfold MachineEdit.colorRound
      rw [MachineEdit.run_ask_bind (Liveness.ofFunction · oneRegister) liveness_movesSp.2]
      with_unfolding_all rfl
    all_goals with_unfolding_all rfl
  · unfold MachineEdit.colorRound
    rw [MachineEdit.run_ask_bind (Liveness.ofFunction · oneRegister) liveness_movesSp.1]
    with_unfolding_all rfl

/-- The liveness of the function that falls through: no path of the control flow leads to its second block. -/
def fallsOnLiveness : Liveness :=
  { effects := #[{ defs := ⟨3 <<< 32⟩ }, { uses := ⟨1 <<< 32⟩ }], liveIn := #[.empty, ⟨1 <<< 32⟩]
    liveOut := #[.empty, .empty], rounds := 1 }

/-- The live nodes of the function that falls through. -/
theorem liveness_fallsOn : Liveness.ofFunction fallsOn oneRegister = .ok fallsOnLiveness := by
  cbv

/-- Allocation puts both values into one register. -/
theorem allocate_fallsOn : ∃ a, (MachineEdit.allocate oneRegister (some 2)).run fallsOn = (.ok a, fallsOnAllocated) ∧
    a.spilled = 0 := by
  rw [MachineEdit.run_allocate (by decide)]
  refine allocateWithin_of_found [.t0, .t0] 0 2 1 1 0 ?_ ?_ ?_
  · unfold MachineEdit.colorRound
    rw [MachineEdit.run_ask_bind (Liveness.ofFunction · oneRegister) liveness_fallsOn]
    with_unfolding_all rfl
  all_goals with_unfolding_all rfl

/-- Three functions that do something else with one register. The first one moves the stack pointer, so it finds
another word where it put its value; the second one calls something that overwrites the word; the third one falls
through to a block where it needs a value that is not live there. Each of them meets the other conditions. -/
theorem not_sameRuns_allocate :
    (Alters echo movesSp ∧ movesSp.HasExits ∧ ∀ words, echo.Respects words) ∧
    (Alters overwriting twoValues ∧ twoValues.HasExits ∧
      ∀ i ∈ twoValues.placedInsts, ∀ op ∈ i.defs, op.register? ≠ some .sp) ∧
    (Alters echo fallsOn ∧ (∀ i ∈ fallsOn.placedInsts, ∀ op ∈ i.defs, op.register? ≠ some .sp) ∧
      ∀ words, echo.Respects words) := by
  refine ⟨⟨?_, by decide, respects_echo⟩, ⟨?_, by decide, by decide⟩, ?_, by decide, respects_echo⟩
  · exact alters_of_returned (x := 3) (y := 79) (t := []) (.of_pairwise (by decide)) liveness_movesSp.1
      rfl allocate_movesSp rfl (by decide) rfl (by decide)
  · exact alters_of_returned (x := 3) (y := 79) (t := [.call "g" [2] []]) transfersLast_twoValues liveness_twoValues
      rfl allocate_twoValues rfl (by decide) rfl (by decide)
  · exact alters_of_returned (x := 1) (y := 2) (t := []) (.of_pairwise (by decide)) liveness_fallsOn
      rfl allocate_fallsOn rfl (by decide) rfl (by decide)

end AllocatedRun

end SsaCompiler
