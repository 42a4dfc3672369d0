import SsaCompiler.Machine.Frame
import SsaCompiler.Proofs.Machine.AllocatedRun

/-!
# What finished functions preserve

A function whose frame is completed runs with all its loads as plain loads from memory. Its first steps
move the stack pointer down and save registers, each return is reached through steps that restore them,
and in between the stack pointer stands at a fixed distance below the place where the caller had it.

The run is followed in three parts. The code of the opening and of an ending is straight, so a run through
it is a fixed number of steps (`opening_run`, `ending_run`). Between them `InBody` is kept by every step.
-/

set_option autoImplicit false

namespace SsaCompiler

open Runs

/-! ## Running finished code -/

/-- A load of a stack parameter as a plain load. -/
def Instr.plain : Instr → Instr
  | .load dst base offset _ => .load dst base offset false
  | i => i

variable {l : List Instr} {events t : List MachineEvent} {n : Nat} {r : Register}

namespace MachineFunction

variable {W : Type}

/-- Runs the next instruction of a finished function, or goes on to the next block. -/
def finishedStep (mf : MachineFunction) (env : MachineEnv W) (s : MachineState W) :
    Progress (MachineState W) MachineEvent MachineOutcome :=
  match s.code with
  | [] => mf.fallThrough s
  | i :: rest =>
    if i.dst?.any fun op => !op.isRegister then .done .fault
    else
      match i.plain.perform env (i.sources.map s.read) s.plainRegs s.memory s.world with
      | .ok e => .next e.events (s.after mf i.dst? e rest)
      | .error o => .done o

variable {mf : MachineFunction} {env : MachineEnv W} {s u : MachineState W} {i : Instr} {rest : List Instr}

/-- What a step of a finished function does. -/
theorem finishedStep_eq_next (hcode : s.code = i :: rest) (h : mf.finishedStep env s = .next events u) :
    ∃ e, i.plain.perform env (i.sources.map s.read) s.plainRegs s.memory s.world = .ok e ∧
      events = e.events ∧ u = s.after mf i.dst? e rest := by
  unfold finishedStep at h
  rw [hcode] at h
  dsimp only at h
  split at h
  · cases h
  · split at h
    · rename_i e he
      cases h
      exact ⟨e, he, rfl, rfl⟩
    · cases h

/-- Straight code is run instruction by instruction. -/
theorem code_of_straight (h : StepsIn (mf.finishedStep env) n s t u) :
    ∀ {l : List Instr}, s.code = l ++ rest → (∀ i ∈ l, i.target? = none) → n ≤ l.length →
      u.code = l.drop n ++ rest := by
  induction h with
  | refl s =>
    intro l hcode _ _
    rw [hcode, List.drop_zero]
  | @head n s p u e t hstep _ ih =>
    intro l hcode hstraight hn
    cases l with
    | nil => exact absurd hn (Nat.not_succ_le_zero n)
    | cons i l =>
      obtain ⟨e, he, -, rfl⟩ := finishedStep_eq_next hcode hstep
      have hplain : i.plain.target? = none := by
        rw [← hstraight i List.mem_cons_self]
        cases i <;> rfl
      have htarget : e.target = none := by
        cases ht : e.target with
        | none => rfl
        | some b =>
          rw [(Instr.perform_ok he).2.1 b ht] at hplain
          cases hplain
      refine ih ?_ (fun j hj => hstraight j (List.mem_cons_of_mem _ hj)) (Nat.le_of_succ_le_succ hn)
      unfold MachineState.after
      rw [htarget]
      rfl

variable {places : List (Register × Word)} {delta : Word}

theorem finishedStep_adjustSp (hcode : s.code = adjustSp delta :: rest) : mf.finishedStep env s =
      .next [] { s with regs := Function.update s.regs .sp (s.regs .sp + delta), code := rest } := by
  unfold finishedStep
  rw [hcode]
  rfl

variable {offset : Word}

theorem finishedStep_save (hcode : s.code = .store (.fixed r) .sp offset :: rest) :
    mf.finishedStep env s = .next [.store (s.regs .sp + offset) (s.reg r)]
      { s with memory := s.memory.set (s.regs .sp + offset) (s.reg r), code := rest } := by
  unfold finishedStep
  rw [hcode]
  rfl

theorem finishedStep_restore (hcode : s.code = .load (.fixed r) .sp offset false :: rest) :
    mf.finishedStep env s = .next [.load (s.regs .sp + offset) (s.memory (s.regs .sp + offset))]
      { s with
        regs := Function.update s.regs r (s.memory (s.regs .sp + offset))
        code := rest } := by
  unfold finishedStep
  rw [hcode]
  rfl

theorem finishedStep_parameter {dst base : Operand} (hdst : dst.isRegister = true)
    (hcode : s.code = .load dst base offset true :: rest) :
    mf.finishedStep env s = .next [.load (s.read base + offset) (s.memory (s.read base + offset))]
      (({ s with code := rest } : MachineState W).write dst (s.memory (s.read base + offset))) := by
  unfold finishedStep
  rw [hcode]
  cases dst with
  | immediate c => cases hdst
  | fixed r | allocated r | «virtual» n => rfl

/-- Moving the stack pointer, or not where there is no need to. -/
theorem run_adjustSp (mf : MachineFunction) (env : MachineEnv W) {needed : Prop} [Decidable needed]
    (hzero : ¬ needed → delta = 0) (hcode : s.code = (if needed then [adjustSp delta] else []) ++ rest) :
    ∃ t u, StepsIn (mf.finishedStep env) (if needed then [adjustSp delta] else []).length s t u ∧
      u.code = rest ∧ u.regs .sp = s.regs .sp + delta ∧ (∀ r, r ≠ .sp → u.regs r = s.regs r) ∧
      u.memory = s.memory := by
  by_cases hneeded : needed
  · rw [if_pos hneeded] at hcode ⊢
    refine ⟨_, _, .single (finishedStep_adjustSp hcode), rfl, ?_, fun r hr => ?_, rfl⟩
    · dsimp only
      rw [Function.update_self]
    · dsimp only
      rw [Function.update_of_ne hr]
  · rw [if_neg hneeded] at hcode ⊢
    refine ⟨_, s, .refl s, hcode, ?_, fun _ _ => rfl, rfl⟩
    rw [hzero hneeded, Int32.add_zero]

theorem run_saves (mf : MachineFunction) (env : MachineEnv W) : ∀ {s : MachineState W}, (places.map Prod.snd).Nodup →
      s.code = (places.map fun e => Instr.store (.fixed e.1) .sp e.2) ++ rest →
      ∃ t u, StepsIn (mf.finishedStep env) places.length s t u ∧ u.code = rest ∧ u.regs = s.regs ∧
        (∀ e ∈ places, u.memory (s.regs .sp + e.2) = s.reg e.1) ∧
        ∀ a, (∀ e ∈ places, a ≠ s.regs .sp + e.2) → u.memory a = s.memory a := by
  induction places with
  | nil => exact fun _ hcode => ⟨_, _, .refl _, hcode, rfl, fun e he => absurd he List.not_mem_nil, fun _ _ => rfl⟩
  | cons d more ih =>
    intro s hnodup hcode
    rw [List.map_cons, List.nodup_cons] at hnodup
    have hfirst : mf.finishedStep env s = _ := finishedStep_save hcode
    obtain ⟨t, u, hrun, hucode, hregs, hsaved, hothers⟩ := ih (s := { s with
      memory := s.memory.set (s.regs .sp + d.2) (s.reg d.1)
      code := (more.map fun e => Instr.store (.fixed e.1) .sp e.2) ++ rest }) hnodup.2 rfl
    refine ⟨_, u, .head hfirst hrun, hucode, hregs, fun e he => ?_, fun a ha => ?_⟩
    · rcases List.mem_cons.1 he with rfl | he
      · rw [hothers _ fun c hc heq => ?_]
        · exact if_pos rfl
        · have hsame : e.2 = c.2 := Int32.add_right_inj (s.regs .sp) |>.1 heq
          exact hnodup.1 (hsame ▸ List.mem_map_of_mem hc)
      · exact hsaved e he
    · rw [hothers a fun e he => ha e (List.mem_cons_of_mem _ he)]
      exact if_neg (ha d List.mem_cons_self)

/-- Restoring registers other than the stack pointer. -/
theorem run_restores (mf : MachineFunction) (env : MachineEnv W) :
    ∀ {s : MachineState W}, (places.map Prod.fst).Nodup → (∀ e ∈ places, e.1 ≠ .sp) →
      s.code = (places.map fun e => Instr.load (.fixed e.1) .sp e.2 false) ++ rest →
      ∃ t u, StepsIn (mf.finishedStep env) places.length s t u ∧ u.code = rest ∧ u.memory = s.memory ∧
        (∀ e ∈ places, u.regs e.1 = s.memory (s.regs .sp + e.2)) ∧
        ∀ r, (∀ e ∈ places, r ≠ e.1) → u.regs r = s.regs r := by
  induction places with
  | nil => exact fun _ _ hcode => ⟨_, _, .refl _, hcode, rfl, fun e he => absurd he List.not_mem_nil, fun _ _ => rfl⟩
  | cons d more ih =>
    intro s hnodup hsp hcode
    rw [List.map_cons, List.nodup_cons] at hnodup
    have hfirst : mf.finishedStep env s = _ := finishedStep_restore hcode
    obtain ⟨t, u, hrun, hucode, hmemory, hrestored, hothers⟩ := ih (s := { s with
      regs := Function.update s.regs d.1 (s.memory (s.regs .sp + d.2))
      code := (more.map fun e => Instr.load (.fixed e.1) .sp e.2 false) ++ rest })
      hnodup.2 (fun e he => hsp e (List.mem_cons_of_mem _ he)) rfl
    have hstay : Function.update s.regs d.1 (s.memory (s.regs .sp + d.2)) .sp = s.regs .sp :=
      Function.update_of_ne (Ne.symm (hsp d List.mem_cons_self)) ..
    refine ⟨_, u, .head hfirst hrun, hucode, hmemory, fun e he => ?_, fun r hr => ?_⟩
    · rcases List.mem_cons.1 he with rfl | he
      · rw [hothers e.1 fun c hc heq => hnodup.1 (heq ▸ List.mem_map_of_mem hc)]
        exact Function.update_self ..
      · have hload := hrestored e he
        dsimp only at hload
        rw [hload, hstay]
    · rw [hothers r fun e he => hr e (List.mem_cons_of_mem _ he)]
      exact Function.update_of_ne (hr d List.mem_cons_self) ..

end MachineFunction

variable {j : Instr}

namespace MachineFunction

/-! ## Finished code -/

/-- The bytes that saved registers take. -/
def bytesOf (saved : List Register) : Word := Int32.ofNat (4 * saved.length)

/-- The instructions that open the finished function. -/
def opening (mf : MachineFunction) : List Instr :=
  prologue mf.registersToSave mf.frameSize (bytesOf mf.registersToSave)

/-- The instructions before each return of the finished function. -/
def ending (mf : MachineFunction) : List Instr :=
  epilogue mf.registersToSave mf.frameSize (bytesOf mf.registersToSave)

/-- What stands in the place of an instruction of a function that returns. -/
def closed (mf : MachineFunction) : Instr → List Instr
  | .ret usesV0 => mf.ending ++ [.ret usesV0]
  | .load dst base offset true => [.load dst base (offset + (mf.frameSize + bytesOf mf.registersToSave)) true]
  | i => [i]

/-- The words where registers are saved, by register. -/
def saveArea (saved : List Register) (sp : Word) : List (Register × Word) :=
  (saveOffsets saved).map fun e => (e.1, sp - bytesOf saved + e.2)

variable {mf mf' : MachineFunction}

/-- An instruction with its offset completed. -/
def completed (fixup : Word) : Instr → Instr
  | .load dst base offset true => .load dst base (offset + fixup) true
  | i => i

variable {i : Instr} {fixup : Word}

/-- Completing an offset. -/
theorem completeOffset_eq_ok (h : completeOffset fixup i = .ok j) : j = completed fixup i := by
  unfold completeOffset at h
  split at h
  · rename_i dst base offset
    cases hadd : Word.add? offset fixup with
    | none =>
      rw [hadd] at h
      cases h
    | some c =>
      rw [hadd] at h
      cases h
      rw [(Word.add?_eq_some hadd).1]
      rfl
  · rename_i hnot
    cases h
    unfold completed
    split
    · exact absurd rfl (hnot _ _ _)
    · rfl

/-- The registers that are saved: the return address, and the general registers that are written. -/
theorem mem_registersToSave (hmain : mf.isMain = false) : r ∈ mf.registersToSave ↔
    r = .ra ∨ r.isGeneral = true ∧ ∃ i ∈ mf.placedInsts, ∃ op ∈ i.defs, op.register? = some r := by
  unfold registersToSave
  rw [if_neg (by simp [hmain])]
  dsimp only
  rw [RegisterSet.mem_toList, RegisterSet.contains_ofList, List.mem_cons, List.mem_filter, List.mem_filterMap]
  simp only [List.mem_flatMap]
  constructor
  · rintro (hr | ⟨⟨op, ⟨i, hi, hop⟩, hreg⟩, hgeneral⟩)
    · exact .inl hr
    · exact .inr ⟨hgeneral, i, hi, op, hop, hreg⟩
  · rintro (hr | ⟨hgeneral, i, hi, op, hop, hreg⟩)
    · exact .inl hr
    · exact .inr ⟨⟨op, ⟨i, hi, hop⟩, hreg⟩, hgeneral⟩

/-- No register is saved twice. -/
theorem nodup_registersToSave (mf : MachineFunction) : mf.registersToSave.Nodup := by
  have hall : Register.all.Nodup := by decide
  unfold registersToSave
  split
  · exact List.nodup_nil
  · exact hall.filter _

/-- There are 32 registers. -/
theorem length_registersToSave_le (mf : MachineFunction) : mf.registersToSave.length ≤ 32 := by
  unfold registersToSave
  split
  · exact Nat.zero_le _
  · exact List.length_filter_le ..

/-- Saved registers take room. -/
theorem bytesOf_pos (hmain : mf.isMain = false) : 0 < bytesOf mf.registersToSave := by
  have hsmall : ∀ n : Fin 33, n.val ≠ 0 → 0 < Int32.ofNat (4 * n.val) := by decide
  refine hsmall ⟨mf.registersToSave.length, Nat.lt_succ_of_le mf.length_registersToSave_le⟩ ?_
  exact Nat.pos_iff_ne_zero.1 (List.length_pos_of_mem ((mem_registersToSave hmain).2 (.inl rfl)))

/-- A function that returns has an opening. -/
theorem opening_ne_nil (hmain : mf.isMain = false) : mf.opening ≠ [] := by
  unfold opening prologue
  rw [if_pos (bytesOf_pos hmain)]
  simp

/-- The opening only moves the stack pointer and stores. -/
theorem opening_straight (h : i ∈ mf.opening) :
    i.target? = none ∧ (∀ u, i ≠ .ret u) ∧ ∀ dst base offset, i ≠ .load dst base offset true := by
  unfold opening prologue adjustSp at h
  rw [List.mem_append] at h
  rcases h with h | h
  · split at h
    · rcases List.mem_cons.1 h with rfl | h
      · simp [Instr.target?]
      · obtain ⟨e, -, rfl⟩ := List.mem_map.1 h
        simp [Instr.target?]
    · cases h
  · split at h
    · rw [List.mem_singleton.1 h]
      simp [Instr.target?]
    · cases h

/-- An ending only moves the stack pointer and loads. -/
theorem ending_straight (h : i ∈ mf.ending) :
    i.target? = none ∧ (∀ u, i ≠ .ret u) ∧ ∀ dst base offset, i ≠ .load dst base offset true := by
  unfold ending epilogue adjustSp at h
  rw [List.mem_append, List.mem_append] at h
  rcases h with (h | h) | h
  · split at h
    · rw [List.mem_singleton.1 h]
      simp [Instr.target?]
    · cases h
  · obtain ⟨e, -, rfl⟩ := List.mem_map.1 h
    simp [Instr.target?]
  · split at h
    · rw [List.mem_singleton.1 h]
      simp [Instr.target?]
    · cases h

/-- Code without stack parameters has complete offsets. -/
theorem map_completed (h : ∀ i ∈ l, ∀ dst base offset, i ≠ .load dst base offset true) :
    l.map (completed fixup) = l := by
  refine (List.map_congr_left fun i hi => ?_).trans (List.map_id l)
  unfold completed
  split
  · exact absurd rfl (h _ hi _ _ _)
  · rfl

/-- Code without returns gets no ending. -/
theorem flatMap_closeReturn {main : Bool} {tail : List Instr} (h : ∀ i ∈ l, ∀ u, i ≠ .ret u) :
    l.flatMap (closeReturn main tail) = l := by
  induction l with
  | nil => rfl
  | cons i rest ih =>
    have hclose : closeReturn main tail i = [i] := by
      unfold closeReturn
      split
      · exact absurd rfl (h _ List.mem_cons_self _)
      · rfl
    rw [List.flatMap_cons, hclose, ih fun j hj => h j (List.mem_cons_of_mem _ hj), List.singleton_append]

/-- An instruction in the finished function. -/
theorem map_completed_closeReturn (i : Instr) : (closeReturn false mf.ending i).map
    (completed (mf.frameSize + bytesOf mf.registersToSave)) = mf.closed i := by
  unfold closeReturn
  split
  · rw [if_neg Bool.false_ne_true, List.map_append, map_completed fun j hj => (ending_straight hj).2.2]
    rfl
  · rename_i hret
    unfold completed closed
    split
    · exact absurd rfl (hret _)
    · rfl
    · rename_i hload
      rw [List.map_singleton]
      split
      · exact absurd rfl (hload _ _ _)
      · rfl

end MachineFunction

namespace MachineEdit

open Edits MachineFunction

variable {mf mf' : MachineFunction}

/-- Completing the frame of a function that returns. -/
theorem finalizeFrame_spec (hmain : mf.isMain = false) (h : finalizeFrame.run mf = (.ok (), mf')) :
    mf'.saved = mf.registersToSave ∧
      ∀ b, mf'.instsOf b = (if b = 0 then mf.opening else []) ++ (mf.instsOf b).flatMap mf.closed := by
  unfold finalizeFrame at h
  have h₁ := of_get_bind h
  dsimp only at h₁
  split at h₁
  · obtain ⟨_, g₂, hthrow, -⟩ := bind_eq_ok h₁
    cases hthrow
  split at h₁
  · obtain ⟨_, g₂, hthrow, -⟩ := bind_eq_ok h₁
    cases hthrow
  rename_i hblocks
  obtain ⟨fixup, hfixup, h₂⟩ := ask_bind_eq_ok h₁
  obtain ⟨blocks, hfound, h₃⟩ := ask_bind_eq_ok h₂
  cases h₃
  obtain rfl : fixup = mf.frameSize + bytesOf mf.registersToSave := by
    unfold Outcome.ofOption at hfixup
    split at hfixup
    · rename_i c hc
      cases hfixup
      exact (Word.add?_eq_some hc).1
    · cases hfixup
  have hanswers := Outcome.mapM_of_answers (fun e : MachineBlock × Nat =>
    { e.1 with insts := (if e.2 = 0 then mf.opening else []) ++ e.1.insts.flatMap mf.closed }) ?_ hfound
  · refine ⟨rfl, fun b => ?_⟩
    by_cases hb : b < mf.blocks.size
    · have hat : blocks[b]? = some { mf.blocks[b] with
          insts := (if b = 0 then mf.opening else []) ++ mf.blocks[b].insts.flatMap mf.closed } := by
        rw [hanswers, List.getElem?_map, List.getElem?_zipIdx, Array.getElem?_toList,
          Array.getElem?_eq_getElem hb]
        simp
      have hold : mf.instsOf b = mf.blocks[b].insts := by rw [instsOf, block_eq_getElem hb]
      rw [hold]
      unfold instsOf MachineFunction.block
      rw [Array.getD_eq_getD_getElem?, List.getElem?_toArray, hat]
      rfl
    · have hnone : blocks[b]? = none := by
        rw [List.getElem?_eq_none_iff, hanswers]
        simpa using hb
      have hzero : b ≠ 0 := by
        rintro rfl
        have hnone : mf.blocks.isEmpty = true := by simpa using hb
        rw [hnone, Bool.true_and, Bool.not_eq_true, Bool.not_eq_false'] at hblocks
        exact opening_ne_nil hmain (List.isEmpty_iff.1 hblocks)
      have hold : mf.instsOf b = [] := by
        unfold instsOf MachineFunction.block
        rw [Array.getD_eq_getD_getElem?, Array.getElem?_eq_none (Nat.le_of_not_lt hb)]
        rfl
      rw [hold, if_neg hzero]
      unfold instsOf MachineFunction.block
      rw [Array.getD_eq_getD_getElem?, List.getElem?_toArray, hnone]
      rfl
  · intro e b he
    obtain ⟨insts, hinsts, hpure⟩ := Outcome.bind_eq_ok.1 he
    cases hpure
    rw [Outcome.mapM_of_answers _ (fun _ _ => completeOffset_eq_ok) hinsts, hmain, List.flatMap_append,
      List.map_append]
    congr 2
    · split
      · change (mf.opening.flatMap _).map _ = _
        rw [flatMap_closeReturn fun i hi => (opening_straight hi).2.1,
          map_completed fun i hi => (opening_straight hi).2.2]
      · rfl
    · rw [List.map_flatMap]
      exact List.flatMap_congr fun i _ => map_completed_closeReturn i

end MachineEdit

namespace MachineFunction

/-! ## The run -/

variable {W : Type} {mf mf' : MachineFunction} {env : MachineEnv W} {regs : Register → Word} {s u : MachineState W}

/-- The registers that are saved are neither zero nor the stack pointer. -/
theorem ne_of_mem_registersToSave (hmain : mf.isMain = false) (h : r ∈ mf.registersToSave) : r ≠ .zero ∧ r ≠ .sp := by
  have hgeneral : ∀ r : Register, r.isGeneral = true → r ≠ .zero ∧ r ≠ .sp := by
    rintro r hr
    constructor <;> rintro rfl <;> cases hr
  rcases (mem_registersToSave hmain).1 h with rfl | ⟨hr, -⟩
  · decide
  · exact hgeneral r hr

/-- The registers of the save area. -/
theorem map_fst_saveOffsets (saved : List Register) : (saveOffsets saved).map Prod.fst = saved := by
  unfold saveOffsets
  rw [List.map_map]
  exact List.zipIdx_map_fst 0 saved

/-- The registers are saved at different places. -/
theorem nodup_saveOffsets (mf : MachineFunction) : ((saveOffsets mf.registersToSave).map Prod.snd).Nodup := by
  have hinj : ∀ i j : Fin 32, Int32.ofNat (4 * i.val) = Int32.ofNat (4 * j.val) → i = j := by decide
  have hplaces : (saveOffsets mf.registersToSave).map Prod.snd =
      (mf.registersToSave.zipIdx.map Prod.snd).map fun i => Int32.ofNat (4 * i) := by
    unfold saveOffsets
    rw [List.map_map, List.map_map]
    rfl
  rw [hplaces, List.zipIdx_map_snd]
  refine List.Nodup.map_on (fun i hi j hj heq => ?_) List.nodup_range'
  have hlen := mf.length_registersToSave_le
  have hi' : i < 32 := by
    have := List.mem_range'_1.1 hi
    omega
  have hj' : j < 32 := by
    have := List.mem_range'_1.1 hj
    omega
  exact congrArg Fin.val (hinj ⟨i, hi'⟩ ⟨j, hj'⟩ heq)

/-- Between opening and ending: the stack pointer stands below the save area, which holds what the saved
registers held at first, and the other general registers hold what they did. `l` are the instructions of the
unfinished function that are still to be run. -/
structure InBody (mf : MachineFunction) (regs : Register → Word) (s : MachineState W) (l : List Instr) :
    Prop where
  code : s.code = l.flatMap mf.closed
  placed : ∃ b, l <:+ mf.instsOf b
  sp : s.regs .sp = regs .sp - bytesOf mf.registersToSave - mf.frameSize
  words : ∀ e ∈ saveArea mf.registersToSave (regs .sp), s.memory e.2 = regs e.1
  others : ∀ r, r.isGeneral = true → r ∉ mf.registersToSave → s.regs r = regs r

/-- A frame that is not negative and not positive is empty. -/
theorem frameSize_eq_zero (hframe : 0 ≤ mf.frameSize) (h : ¬ 0 < mf.frameSize) : mf.frameSize = 0 :=
  Int32.le_antisymm (Int32.not_lt.1 h) hframe

/-- The opening leads into the body. -/
theorem opening_run (hmain : mf.isMain = false) (hframe : 0 ≤ mf.frameSize)
    (hinsts : ∀ b, mf'.instsOf b = (if b = 0 then mf.opening else []) ++ (mf.instsOf b).flatMap mf.closed)
    (vregs : Nat → Word) (m : Memory) (w : W) :
    ∃ t u, StepsIn (mf'.finishedStep env) mf.opening.length (mf'.start regs vregs m w) t u ∧
      InBody mf regs u (mf.instsOf 0) := by
  have hopening : mf.opening = adjustSp (-bytesOf mf.registersToSave) ::
      ((saveOffsets mf.registersToSave).map fun e => Instr.store (.fixed e.1) .sp e.2) ++
        if 0 < mf.frameSize then [adjustSp (-mf.frameSize)] else [] := by
    unfold opening prologue
    rw [if_pos (bytesOf_pos hmain)]
  have hstart : (mf'.start regs vregs m w).code = adjustSp (-bytesOf mf.registersToSave) ::
      (((saveOffsets mf.registersToSave).map fun e => Instr.store (.fixed e.1) .sp e.2) ++
        ((if 0 < mf.frameSize then [adjustSp (-mf.frameSize)] else []) ++ (mf.instsOf 0).flatMap mf.closed)) := by
    change mf'.instsOf 0 = _
    rw [hinsts 0, if_pos rfl, hopening]
    simp
  have hfirst : mf'.finishedStep env (mf'.start regs vregs m w) = _ := finishedStep_adjustSp hstart
  obtain ⟨t₁, s₁, hrun₁, hcode₁, hregs₁, hsaved₁, -⟩ := run_saves mf' env (s := { mf'.start regs vregs m w with
    regs := Function.update regs .sp (regs .sp + -bytesOf mf.registersToSave)
    code := ((saveOffsets mf.registersToSave).map fun e => Instr.store (.fixed e.1) .sp e.2) ++
      ((if 0 < mf.frameSize then [adjustSp (-mf.frameSize)] else []) ++ (mf.instsOf 0).flatMap mf.closed) })
    (nodup_saveOffsets mf) rfl
  obtain ⟨t₂, s₂, hrun₂, hcode₂, hsp₂, hregs₂, hmemory₂⟩ := run_adjustSp mf' env
    (fun h => by rw [frameSize_eq_zero hframe h]; rfl) hcode₁
  dsimp only at hregs₁ hsaved₁
  rw [Function.update_self] at hsaved₁
  refine ⟨[] ++ (t₁ ++ t₂), s₂, ?_, hcode₂, ⟨0, List.suffix_rfl⟩, ?_, fun e he => ?_, fun r hr hnot => ?_⟩
  · have hlength : mf.opening.length = (saveOffsets mf.registersToSave).length +
        (if 0 < mf.frameSize then [adjustSp (-mf.frameSize)] else []).length + 1 := by
      rw [hopening, List.cons_append, List.length_cons, List.length_append, List.length_map]
    rw [hlength]
    exact .head hfirst (hrun₁.append hrun₂)
  · rw [hsp₂, hregs₁, Function.update_self, Int32.sub_eq_add_neg, Int32.sub_eq_add_neg]
  · obtain ⟨d, hd, rfl⟩ := List.mem_map.1 he
    have hd' : d.1 ∈ mf.registersToSave := by
      rw [← map_fst_saveOffsets mf.registersToSave]
      exact List.mem_map_of_mem hd
    obtain ⟨hzero, hsp⟩ := ne_of_mem_registersToSave hmain hd'
    rw [hmemory₂, Int32.sub_eq_add_neg, hsaved₁ d hd, MachineState.reg, if_neg hzero]
    exact Function.update_of_ne hsp ..
  · have hsp : r ≠ .sp := by
      rintro rfl
      cases hr
    rw [hregs₂ r hsp, hregs₁, Function.update_of_ne hsp]

/-- An ending gives back what the registers held at first. -/
theorem ending_run (mf' : MachineFunction) (env : MachineEnv W) (hmain : mf.isMain = false)
    (hframe : 0 ≤ mf.frameSize) {usesV0 : Bool} (h : InBody mf regs s (.ret usesV0 :: l)) :
    ∃ t u, StepsIn (mf'.finishedStep env) mf.ending.length s t u ∧ u.code = .ret usesV0 :: l.flatMap mf.closed ∧
      u.regs .sp = regs .sp ∧ u.regs .ra = regs .ra ∧ ∀ r, r.isGeneral = true → u.regs r = regs r := by
  have hending : mf.ending = (if 0 < mf.frameSize then [adjustSp mf.frameSize] else []) ++
      (((saveOffsets mf.registersToSave).map fun e => Instr.load (.fixed e.1) .sp e.2 false) ++
        if 0 < bytesOf mf.registersToSave then [adjustSp (bytesOf mf.registersToSave)] else []) := by
    unfold ending epilogue
    rw [List.append_assoc]
  have hcode : s.code = (if 0 < mf.frameSize then [adjustSp mf.frameSize] else []) ++
      (((saveOffsets mf.registersToSave).map fun e => Instr.load (.fixed e.1) .sp e.2 false) ++
        ((if 0 < bytesOf mf.registersToSave then [adjustSp (bytesOf mf.registersToSave)] else []) ++
          .ret usesV0 :: l.flatMap mf.closed)) := by
    rw [h.code, List.flatMap_cons]
    change mf.ending ++ [.ret usesV0] ++ _ = _
    rw [hending]
    simp only [List.append_assoc, List.singleton_append]
  have hplaces : ∀ e ∈ saveOffsets mf.registersToSave, e.1 ∈ mf.registersToSave := by
    intro e he
    rw [← map_fst_saveOffsets mf.registersToSave]
    exact List.mem_map_of_mem he
  obtain ⟨t₁, s₁, hrun₁, hcode₁, hsp₁, hregs₁, hmemory₁⟩ :=
    run_adjustSp mf' env (frameSize_eq_zero hframe) hcode
  obtain ⟨t₂, s₂, hrun₂, hcode₂, -, hrestored₂, hregs₂⟩ := run_restores mf' env
    (by rw [map_fst_saveOffsets]; exact nodup_registersToSave mf)
    (fun e he => (ne_of_mem_registersToSave hmain (hplaces e he)).2) hcode₁
  obtain ⟨t₃, s₃, hrun₃, hcode₃, hsp₃, hregs₃, -⟩ :=
    run_adjustSp mf' env (fun h => absurd (bytesOf_pos hmain) h) hcode₂
  have hbottom : s₁.regs .sp = regs .sp - bytesOf mf.registersToSave := by
    rw [hsp₁, h.sp, Int32.sub_add_cancel]
  have hsaved : ∀ r ∈ mf.registersToSave, s₃.regs r = regs r := by
    intro r hr
    have hplace := hr
    rw [← map_fst_saveOffsets mf.registersToSave] at hplace
    obtain ⟨e, he, rfl⟩ := List.mem_map.1 hplace
    rw [hregs₃ _ (ne_of_mem_registersToSave hmain hr).2, hrestored₂ e he, hmemory₁, hbottom]
    exact h.words _ (List.mem_map_of_mem he)
  refine ⟨t₁ ++ (t₂ ++ t₃), s₃, ?_, hcode₃, ?_, hsaved _ ((mem_registersToSave hmain).2 (.inl rfl)), fun r hr => ?_⟩
  · rw [hending, List.length_append, List.length_append, List.length_map]
    exact hrun₁.append (hrun₂.append hrun₃)
  · rw [hsp₃, hregs₂ _ fun e he heq => (ne_of_mem_registersToSave hmain (hplaces e he)).2 heq.symm, hbottom,
      Int32.sub_add_cancel]
  · by_cases hin : r ∈ mf.registersToSave
    · exact hsaved r hin
    · have hsp : r ≠ .sp := by
        rintro rfl
        cases hr
      rw [hregs₃ r hsp, hregs₂ r fun e he heq => hin (heq ▸ hplaces e he), hregs₁ r hsp, h.others r hr hin]

/-- An ending is not empty. -/
theorem ending_ne_nil (hmain : mf.isMain = false) : mf.ending ≠ [] := by
  unfold ending epilogue
  rw [if_pos (bytesOf_pos hmain)]
  simp

variable {i : Instr} {rest : List Instr}

/-- An instruction that is no return stays alone. -/
theorem closed_of_ne_ret (h : ∀ usesV0, i ≠ .ret usesV0) :
    mf.closed i = [completed (mf.frameSize + bytesOf mf.registersToSave) i] := by
  rw [← map_completed_closeReturn, closeReturn]
  · rfl
  · exact h

/-- A step of the body stays in the body. -/
theorem InBody.step (hmain : mf.isMain = false)
    (hinsts : ∀ b, mf'.instsOf b = (if b = 0 then mf.opening else []) ++ (mf.instsOf b).flatMap mf.closed)
    (hentry : ∀ i ∈ mf.placedInsts, i.target? ≠ some 0)
    (hsp : ∀ i ∈ mf.placedInsts, ∀ op ∈ i.defs, op.register? ≠ some .sp) (h : InBody mf regs s (i :: l))
    (hret : ∀ usesV0, i ≠ .ret usesV0) (hstep : mf'.finishedStep env s = .next events u)
    (hwords : ∀ e ∈ saveArea mf.registersToSave (regs .sp), u.memory e.2 = s.memory e.2) :
    ∃ l', InBody mf regs u l' := by
  obtain ⟨b, hb⟩ := h.placed
  have hplaced : i ∈ mf.placedInsts := mem_placedInsts.2 ⟨b, hb.subset List.mem_cons_self⟩
  have hcode : s.code = completed (mf.frameSize + bytesOf mf.registersToSave) i :: l.flatMap mf.closed := by
    rw [h.code, List.flatMap_cons, closed_of_ne_ret hret]
    rfl
  have hdst : (completed (mf.frameSize + bytesOf mf.registersToSave) i).dst? = i.dst? := by
    unfold completed
    split <;> rfl
  have htarget : (completed (mf.frameSize + bytesOf mf.registersToSave) i).plain.target? = i.target? := by
    unfold completed
    split
    · rfl
    · cases i <;> rfl
  obtain ⟨e, he, -, rfl⟩ := finishedStep_eq_next hcode hstep
  rw [hdst] at hwords ⊢
  have hkeep : ∀ r : Register, (r.isGeneral || r == .sp) = true → (∀ op ∈ i.defs, op.register? ≠ some r) →
      (s.after mf' i.dst? e (l.flatMap mf.closed)).regs r = s.regs r :=
    fun r hr hdefs => MachineState.regs_after hr fun op hop => hdefs op (Instr.mem_defs_of_dst hop)
  have hstay : ∀ l', (s.after mf' i.dst? e (l.flatMap mf.closed)).code = l'.flatMap mf.closed →
      (∃ b, l' <:+ mf.instsOf b) → InBody mf regs (s.after mf' i.dst? e (l.flatMap mf.closed)) l' := by
    intro l' hcode' hplaced'
    refine ⟨hcode', hplaced', ?_, fun d hd => ?_, fun r hr hnot => ?_⟩
    · rw [hkeep .sp rfl (hsp i hplaced), h.sp]
    · rw [hwords d hd, h.words d hd]
    · rw [hkeep r (by rw [hr, Bool.true_or]) fun op hop hreg => ?_, h.others r hr hnot]
      exact hnot ((mem_registersToSave hmain).2 (.inr ⟨hr, i, hplaced, op, hop, hreg⟩))
  cases hgo : e.target with
  | none =>
    refine ⟨l, hstay l ?_ ⟨b, (List.suffix_cons i l).trans hb⟩⟩
    rw [MachineState.code_after, hgo]
    rfl
  | some c =>
    have hc := (Instr.perform_ok he).2.1 c hgo
    rw [htarget] at hc
    have hzero : c ≠ 0 := by
      rintro rfl
      exact hentry i hplaced hc
    refine ⟨mf.instsOf c, hstay _ ?_ ⟨c, List.suffix_rfl⟩⟩
    rw [MachineState.code_after, hgo]
    change mf'.instsOf c = _
    rw [hinsts c, if_neg hzero, List.nil_append]

/-- Behind the end of a block the body goes on with the next block. -/
theorem InBody.fall (hinsts : ∀ b, mf'.instsOf b = (if b = 0 then mf.opening else []) ++ (mf.instsOf b).flatMap mf.closed)
    (h : InBody mf regs s []) : InBody mf regs { s with block := s.block + 1, code := mf'.instsOf (s.block + 1) }
      (mf.instsOf (s.block + 1)) := by
  refine ⟨?_, ⟨_, List.suffix_rfl⟩, h.sp, h.words, h.others⟩
  change mf'.instsOf (s.block + 1) = _
  rw [hinsts, if_neg (Nat.succ_ne_zero _), List.nil_append]

/-- Some words do not change in the steps of a run before `last` and from `first` on. -/
def LeavesAlone (mf : MachineFunction) (env : MachineEnv W) (words : List Word) (s : MachineState W)
    (first last : Nat) : Prop :=
  ∀ k t u events v, first ≤ k → k < last → StepsIn (mf.finishedStep env) k s t u →
    mf.finishedStep env u = .next events v → ∀ a ∈ words, v.memory a = u.memory a

/-- The later steps of a run that leaves words alone. -/
theorem LeavesAlone.later {words : List Word} {first last k : Nat} (h : LeavesAlone mf env words s first last)
    (hrun : StepsIn (mf.finishedStep env) k s t u) (hk : first ≤ k) : LeavesAlone mf env words u 0 (last - k) := by
  intro j t' v events v' _ hlast hrun' hstep
  exact h (k + j) _ v events v' (by omega) (by omega) (hrun.append hrun') hstep

/-- Where a run from the body can be: in the body, or in an ending. -/
theorem InBody.run (hmain : mf.isMain = false) (hframe : 0 ≤ mf.frameSize)
    (hinsts : ∀ b, mf'.instsOf b = (if b = 0 then mf.opening else []) ++ (mf.instsOf b).flatMap mf.closed)
    (hentry : ∀ i ∈ mf.placedInsts, i.target? ≠ some 0)
    (hsp : ∀ i ∈ mf.placedInsts, ∀ op ∈ i.defs, op.register? ≠ some .sp)
    (hrun : StepsIn (mf'.finishedStep env) n s t u) : ∀ {l : List Instr}, InBody mf regs s l →
      LeavesAlone mf' env ((saveArea mf.registersToSave (regs .sp)).map Prod.snd) s 0 n →
      (∃ l', InBody mf regs u l') ∨ ∃ v l' usesV0 k t', InBody mf regs v (.ret usesV0 :: l') ∧
        StepsIn (mf'.finishedStep env) k v t' u ∧ k ≤ mf.ending.length := by
  induction hrun with
  | refl s => exact fun h _ => .inl ⟨_, h⟩
  | @head n s p u e t hstep hrest ih =>
    intro l h hwords
    cases l with
    | nil =>
      have hfall : mf'.fallThrough s = .next e p := by
        unfold finishedStep at hstep
        rw [h.code] at hstep
        exact hstep
      obtain ⟨-, -, rfl⟩ := fallThrough_eq_next hfall
      exact ih (h.fall hinsts) (hwords.later (.single hstep) (Nat.zero_le 1))
    | cons i l =>
      by_cases hret : ∃ usesV0, i = .ret usesV0
      · obtain ⟨usesV0, rfl⟩ := hret
        obtain ⟨t', v, hend, hcode, -⟩ := ending_run mf' env hmain hframe h
        have hdone : mf'.finishedStep env v = .done (.returned (v.plainRegs .v0)) := by
          unfold finishedStep
          rw [hcode]
          rfl
        exact .inr ⟨s, l, usesV0, n + 1, _, h, .head hstep hrest, hend.le_of_done hdone (.head hstep hrest)⟩
      · have hnot : ∀ usesV0, i ≠ .ret usesV0 := fun usesV0 heq => hret ⟨usesV0, heq⟩
        obtain ⟨l', h'⟩ := h.step hmain hinsts hentry hsp hnot hstep fun e he =>
          hwords 0 [] s _ p (Nat.le_refl 0) (Nat.succ_pos n) (.refl s) hstep e.2 (List.mem_map_of_mem he)
        exact ih h' (hwords.later (.single hstep) (Nat.zero_le 1))

/-- The next instruction in the body: one that is no return, completed, or the first one of an ending. -/
theorem InBody.code_cases (hmain : mf.isMain = false) (h : InBody mf regs s l) (hcode : s.code = j :: rest) :
    j ∈ mf.ending ∨ ∃ i ∈ mf.placedInsts, (∀ usesV0, i ≠ .ret usesV0) ∧
      j = completed (mf.frameSize + bytesOf mf.registersToSave) i := by
  rw [h.code] at hcode
  cases l with
  | nil => cases hcode
  | cons i l =>
    by_cases hret : ∃ usesV0, i = .ret usesV0
    · obtain ⟨usesV0, rfl⟩ := hret
      have hne := ending_ne_nil hmain
      rw [List.flatMap_cons] at hcode
      change mf.ending ++ [.ret usesV0] ++ _ = _ at hcode
      cases hend : mf.ending with
      | nil => exact absurd hend hne
      | cons a more =>
        rw [hend] at hcode
        cases hcode
        exact .inl List.mem_cons_self
    · have hnot : ∀ usesV0, i ≠ .ret usesV0 := fun usesV0 heq => hret ⟨usesV0, heq⟩
      obtain ⟨b, hb⟩ := h.placed
      rw [List.flatMap_cons, closed_of_ne_ret hnot] at hcode
      cases hcode
      exact .inr ⟨i, mem_placedInsts.2 ⟨b, hb.subset List.mem_cons_self⟩, hnot, rfl⟩

/-- The next instruction inside straight code is one of its instructions. -/
theorem mem_of_straight {more : List Instr} (h : StepsIn (mf.finishedStep env) n s t u) (hcode : s.code = l ++ rest)
    (hstraight : ∀ i ∈ l, i.target? = none) (hn : n < l.length) (hj : u.code = j :: more) : j ∈ l := by
  rw [code_of_straight h hcode hstraight hn.le, List.drop_eq_getElem_cons hn] at hj
  cases hj
  exact List.getElem_mem hn

/-- Where a run of a finished function can be. -/
inductive Place (mf : MachineFunction) (regs : Register → Word) (s : MachineState W) : Prop
  /-- Inside the opening or an ending. -/
  | margin (h : ∀ j rest, s.code = j :: rest → j ∈ mf.opening ∨ j ∈ mf.ending)
  | body {l : List Instr} (h : InBody mf regs s l)
  /-- At a return, behind its ending. -/
  | closing {usesV0 : Bool} {rest : List Instr} (hcode : s.code = .ret usesV0 :: rest)
      (hsp : s.regs .sp = regs .sp) (hra : s.regs .ra = regs .ra)
      (hgeneral : ∀ r, r.isGeneral = true → s.regs r = regs r)

/-- A run from the entry is in the opening, in the body, in an ending or at a return. -/
theorem place_of_run (hmain : mf.isMain = false) (hframe : 0 ≤ mf.frameSize)
    (hinsts : ∀ b, mf'.instsOf b = (if b = 0 then mf.opening else []) ++ (mf.instsOf b).flatMap mf.closed)
    (hentry : ∀ i ∈ mf.placedInsts, i.target? ≠ some 0)
    (hsp : ∀ i ∈ mf.placedInsts, ∀ op ∈ i.defs, op.register? ≠ some .sp) {vregs : Nat → Word} {m : Memory} {w : W}
    (hrun : StepsIn (mf'.finishedStep env) n (mf'.start regs vregs m w) t s)
    (hwords : LeavesAlone mf' env ((saveArea mf.registersToSave (regs .sp)).map Prod.snd)
      (mf'.start regs vregs m w) mf.opening.length n) : Place mf regs s := by
  have hopen : (mf'.start regs vregs m w).code = mf.opening ++ (mf.instsOf 0).flatMap mf.closed := by
    change mf'.instsOf 0 = _
    rw [hinsts 0, if_pos rfl]
  by_cases hn : n < mf.opening.length
  · exact .margin fun j rest hj =>
      .inl (mem_of_straight hrun hopen (fun i hi => (opening_straight hi).1) hn hj)
  obtain ⟨k, rfl⟩ : ∃ k, n = mf.opening.length + k := ⟨n - mf.opening.length, by omega⟩
  obtain ⟨t₁, u, hfirst, hu⟩ := opening_run hmain hframe hinsts vregs m w
  obtain ⟨t₂, hrest, -⟩ := hfirst.split hrun
  have hlater := hwords.later hfirst (Nat.le_refl _)
  rw [Nat.add_sub_cancel_left] at hlater
  rcases InBody.run hmain hframe hinsts hentry hsp hrest hu hlater with
    ⟨l, hl⟩ | ⟨v, l, usesV0, j, t₃, hv, hend, hj⟩
  · exact .body hl
  · have hcode : v.code = mf.ending ++ .ret usesV0 :: l.flatMap mf.closed := by
      rw [hv.code, List.flatMap_cons]
      change mf.ending ++ [.ret usesV0] ++ _ = _
      rw [List.append_assoc, List.singleton_append]
    rcases Nat.lt_or_eq_of_le hj with hlt | rfl
    · exact .margin fun i rest hi =>
        .inr (mem_of_straight hend hcode (fun i hi => (ending_straight hi).1) hlt hi)
    · obtain ⟨t₄, x, hclose, hxcode, hxsp, hxra, hxgeneral⟩ := ending_run mf' env hmain hframe hv
      -- The ending is run in one way only.
      obtain ⟨t₅, hnone, -⟩ := hclose.split (m := 0) hend
      cases hnone
      exact .closing hxcode hxsp hxra hxgeneral

/-- Neither the opening nor an ending has a return or a load of a stack parameter. -/
theorem margin_straight (h : i ∈ mf.opening ∨ i ∈ mf.ending) :
    (∀ usesV0, i ≠ .ret usesV0) ∧ ∀ dst base offset, i ≠ .load dst base offset true :=
  h.elim (fun hi => (opening_straight hi).2) fun hi => (ending_straight hi).2

/-- At a return the registers of the caller are back. -/
theorem Place.restored (hmain : mf.isMain = false) (h : Place mf regs s) {usesV0 : Bool}
    (hcode : s.code = .ret usesV0 :: rest) :
    s.reg .sp = regs .sp ∧ s.reg .ra = regs .ra ∧ ∀ r, r.isGeneral = true → s.reg r = regs r := by
  cases h with
  | margin h => exact absurd rfl ((margin_straight (h _ _ hcode)).1 usesV0)
  | body h =>
    rcases h.code_cases hmain hcode with hend | ⟨i, -, hnot, heq⟩
    · exact absurd rfl ((ending_straight hend).2.1 usesV0)
    · unfold completed at heq
      split at heq
      · cases heq
      · exact absurd heq.symm (hnot usesV0)
  | closing _ hsp hra hgeneral =>
    refine ⟨hsp, hra, fun r hr => ?_⟩
    have hzero : r ≠ .zero := by
      rintro rfl
      cases hr
    rw [MachineState.reg, if_neg hzero, hgeneral r hr]

/-- A load of a stack parameter is one of the function with its offset completed, and it stands where its address is
that of the word as the caller had it. -/
theorem Place.parameter (hmain : mf.isMain = false) (h : Place mf regs s) {dst base : Operand} {offset : Word}
    (hcode : s.code = .load dst base offset true :: rest) (hbase : base.register? = some .sp) :
    ∃ original, .load dst base original true ∈ mf.placedInsts ∧
      offset = original + (mf.frameSize + bytesOf mf.registersToSave) ∧ s.read base + offset = regs .sp + original := by
  cases h with
  | margin h => exact absurd rfl ((margin_straight (h _ _ hcode)).2 dst base offset)
  | closing hcode' =>
    rw [hcode'] at hcode
    cases hcode
  | body h =>
    rcases h.code_cases hmain hcode with hend | ⟨i, hi, -, heq⟩
    · exact absurd rfl ((ending_straight hend).2.2 dst base offset)
    · obtain ⟨original, rfl, rfl⟩ : ∃ original, i = .load dst base original true ∧
          offset = original + (mf.frameSize + bytesOf mf.registersToSave) := by
        unfold completed at heq
        split at heq
        · cases heq
          exact ⟨_, rfl, rfl⟩
        · rename_i hload
          exact absurd heq.symm (hload _ _ _)
      have hread : s.read base = regs .sp - bytesOf mf.registersToSave - mf.frameSize := by
        rw [← h.sp]
        cases base <;> cases hbase <;> rfl
      refine ⟨original, hi, rfl, ?_⟩
      rw [hread]
      grind

/-- What a finished function does at its returns and at its loads of stack parameters. A function that is
not the main one, whose first block is no target and whose instructions do not write the stack pointer, gives
back the stack pointer, the return address and the general registers as it found them. In its code each load
of a stack parameter stands where it stood, its offset completed by the size of the frame and of the save area,
and it finds the word where the caller put it, relative to the stack pointer as the caller had it; no other load
is marked as one. The words where registers are saved must not be changed by anything else. -/
theorem keeps_convention_of_finalizeFrame (hmain : mf.isMain = false) (hframe : 0 ≤ mf.frameSize)
    (hentry : ∀ i ∈ mf.placedInsts, i.target? ≠ some 0)
    (hsp : ∀ i ∈ mf.placedInsts, ∀ op ∈ i.defs, op.register? ≠ some .sp)
    (hfinal : MachineEdit.finalizeFrame.run mf = (.ok (), mf')) {vregs : Nat → Word} {m : Memory} {w : W}
    {n : Nat} {t : List MachineEvent}
    (hrun : StepsIn (mf'.finishedStep env) n (mf'.start regs vregs m w) t s)
    (hwords : LeavesAlone mf' env ((saveArea mf'.saved (regs .sp)).map Prod.snd) (mf'.start regs vregs m w)
      mf.opening.length n) :
    (mf'.saved = mf.registersToSave ∧
      ∀ b, mf'.instsOf b = (if b = 0 then mf.opening else []) ++ (mf.instsOf b).flatMap mf.closed) ∧
    (∀ usesV0 rest, s.code = .ret usesV0 :: rest →
      s.reg .sp = regs .sp ∧ s.reg .ra = regs .ra ∧ ∀ r, r.isGeneral = true → s.reg r = regs r) ∧
    (∀ dst base original, .load dst base original true ∈ mf.placedInsts → base.register? = some .sp →
      .load dst base (original + (mf.frameSize + bytesOf mf'.saved)) true ∈ mf'.placedInsts ∧
        ∀ rest, s.code = .load dst base (original + (mf.frameSize + bytesOf mf'.saved)) true :: rest →
          dst.isRegister = true → mf'.finishedStep env s =
            .next [.load (regs .sp + original) (s.memory (regs .sp + original))]
              (({ s with code := rest } : MachineState W).write dst (s.memory (regs .sp + original)))) ∧
    ∀ dst base offset rest, s.code = .load dst base offset true :: rest → base.register? = some .sp →
      ∃ original, .load dst base original true ∈ mf.placedInsts ∧
        offset = original + (mf.frameSize + bytesOf mf'.saved) ∧
        (dst.isRegister = true → mf'.finishedStep env s =
          .next [.load (regs .sp + original) (s.memory (regs .sp + original))]
            (({ s with code := rest } : MachineState W).write dst (s.memory (regs .sp + original)))) := by
  obtain ⟨hsaved, hinsts⟩ := MachineEdit.finalizeFrame_spec hmain hfinal
  rw [hsaved] at hwords ⊢
  have hplace := place_of_run hmain hframe hinsts hentry hsp hrun hwords
  refine ⟨⟨rfl, hinsts⟩, fun usesV0 rest hcode => hplace.restored hmain hcode, fun dst base original hi hbase => ⟨?_, ?_⟩,
    fun dst base offset rest hcode hbase => ?_⟩
  · obtain ⟨b, hb⟩ := mem_placedInsts.1 hi
    refine mem_placedInsts.2 ⟨b, ?_⟩
    rw [hinsts b]
    exact List.mem_append_right _ (List.mem_flatMap.2 ⟨_, hb, List.mem_singleton_self _⟩)
  · intro rest hcode hdst
    obtain ⟨original', -, hoffset, haddress⟩ := hplace.parameter hmain hcode hbase
    obtain rfl : original = original' := (Int32.add_left_inj _).1 hoffset
    rw [finishedStep_parameter hdst hcode, haddress]
  · obtain ⟨original, hi, hoffset, haddress⟩ := hplace.parameter hmain hcode hbase
    refine ⟨original, hi, hoffset, fun hdst => ?_⟩
    rw [finishedStep_parameter hdst hcode, haddress]

/-- Whether an instruction may change memory. -/
def mayStore : Instr → Bool
  | .store .. | .call .. | .syscall => true
  | _ => false

/-- The other instructions do not change memory. -/
theorem memory_of_finishedStep (hcode : s.code = i :: rest) (hi : mayStore i = false)
    (h : mf.finishedStep env s = .next events u) : u.memory = s.memory := by
  obtain ⟨e, he, -, rfl⟩ := finishedStep_eq_next hcode h
  change e.memory = s.memory
  cases i with
  | store | call | syscall => cases hi
  | binary | loadAddr =>
    simp only [Instr.plain, Instr.perform, Instr.sources, List.map_cons, List.map_nil] at he
    split at he
    · cases he
      rfl
    · cases he
  | ret usesV0 =>
    simp only [Instr.plain, Instr.perform] at he
    cases he
  | _ =>
    simp only [Instr.plain, Instr.perform, Instr.sources, List.map_cons, List.map_nil] at he
    cases he
    rfl

/-- A function that returns its fifth argument. -/
def fifthArgument : MachineFunction :=
  { name := "fifth", isMain := false, returnsValue := true, frameSize := 8
    blocks := #[{ label := "f_fifth_b0", loopDepth := 0, insts := [
      .load (.allocated .t0) .sp 0 true, .move .v0 (.allocated .t0), .ret true] }] }

/-- The function with its frame completed. -/
def fifthFinished : MachineFunction := (MachineEdit.finalizeFrame.run fifthArgument).2

/-- Registers of a caller. -/
def callerRegs (r : Register) : Word := if r = .sp then 1000 else Int32.ofNat r.toNat

/-- The state in which the function is entered, where each word of memory holds its address. -/
def fifthStart : MachineState Unit := fifthFinished.start callerRegs (fun _ => 0) id ()

/-- The run of the function leaves its save area alone once it is filled. -/
theorem leavesAlone_fifthFinished (hn : n ≤ 10) : LeavesAlone fifthFinished AllocatedRun.echo
    ((saveArea fifthFinished.saved (callerRegs .sp)).map Prod.snd) fifthStart fifthArgument.opening.length n := by
  intro k t u events v hfirst hlast hrun hstep a _
  have hstraight : ∀ i ∈ (fifthFinished.instsOf 0).take 10, i.target? = none := by decide
  have hquiet : ∀ i ∈ ((fifthFinished.instsOf 0).take 10).drop 4, mayStore i = false := by decide
  have hk : 4 ≤ k := hfirst
  have hlength : ((fifthFinished.instsOf 0).take 10).length = 10 := rfl
  have hk' : k < ((fifthFinished.instsOf 0).take 10).length := by omega
  have hcode : u.code = ((fifthFinished.instsOf 0).take 10).drop k ++ [.ret true] :=
    code_of_straight hrun rfl hstraight hk'.le
  rw [List.drop_eq_getElem_cons hk', List.cons_append] at hcode
  rw [memory_of_finishedStep hcode (hquiet _ ?_) hstep]
  obtain ⟨j, rfl⟩ := Nat.exists_eq_add_of_le hk
  have hj : j < (((fifthFinished.instsOf 0).take 10).drop 4).length := by
    rw [List.length_drop]
    omega
  rw [← List.getElem_drop (h := hj)]
  exact List.getElem_mem hj

/-- Behind its opening the function loads the word at the caller's stack pointer, and it returns with the
registers of the caller. -/
theorem keeps_convention_fifthArgument :
    .load (.allocated .t0) .sp (0 + (8 + 8)) true ∈ fifthFinished.placedInsts ∧
    (∃ t s, StepsIn (fifthFinished.finishedStep AllocatedRun.echo) 4 fifthStart t s ∧
      ∃ v, fifthFinished.finishedStep AllocatedRun.echo s = .next [.load 1000 1000] v) ∧
    ∃ t s, StepsIn (fifthFinished.finishedStep AllocatedRun.echo) 10 fifthStart t s ∧ s.code = [.ret true] ∧
      s.reg .sp = 1000 ∧ s.reg .ra = 31 ∧ s.reg .t0 = 8 := by
  have hentry : ∀ i ∈ fifthArgument.placedInsts, i.target? ≠ some 0 := by decide
  have hsp : ∀ i ∈ fifthArgument.placedInsts, ∀ op ∈ i.defs, op.register? ≠ some .sp := by decide
  have hfinal : MachineEdit.finalizeFrame.run fifthArgument = (.ok (), fifthFinished) := rfl
  have hopen : ∃ t s, StepsIn (fifthFinished.finishedStep AllocatedRun.echo) 4 fifthStart t s ∧
      s.code = .load (.allocated .t0) .sp 16 true :: (fifthFinished.instsOf 0).drop 5 ∧ s.memory 1000 = 1000 :=
    ⟨_, _, .head rfl (.head rfl (.head rfl (.head rfl (.refl _)))), rfl, rfl⟩
  have hreturn : ∃ t s, StepsIn (fifthFinished.finishedStep AllocatedRun.echo) 10 fifthStart t s ∧ s.code = [.ret true] :=
    ⟨_, _, .head rfl (.head rfl (.head rfl (.head rfl (.head rfl (.head rfl (.head rfl (.head rfl (.head rfl
      (.head rfl (.refl _)))))))))), rfl⟩
  obtain ⟨t, s, hrun, hcode, hmemory⟩ := hopen
  obtain ⟨t', s', hrun', hcode'⟩ := hreturn
  obtain ⟨-, -, hloads, -⟩ := keeps_convention_of_finalizeFrame rfl (by decide) hentry hsp hfinal hrun
    (leavesAlone_fifthFinished (by decide))
  obtain ⟨hplaced, hload⟩ := hloads (.allocated .t0) .sp 0 (by decide) rfl
  obtain ⟨-, hreturns, -, -⟩ := keeps_convention_of_finalizeFrame rfl (by decide) hentry hsp hfinal hrun'
    (leavesAlone_fifthFinished (by decide))
  obtain ⟨hsp', hra, hgeneral⟩ := hreturns _ _ hcode'
  have haddress : callerRegs .sp + 0 = 1000 := rfl
  have hload := hload _ hcode rfl
  rw [haddress, hmemory] at hload
  exact ⟨hplaced, ⟨t, s, hrun, _, hload⟩, t', s', hrun', hcode', hsp', hra, hgeneral .t0 rfl⟩

end MachineFunction

end SsaCompiler
