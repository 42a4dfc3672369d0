import SsaCompiler.Machine.Allocate
import SsaCompiler.Proofs.Machine.Conflicts

/-!
# The shape of spilled code

`Reloads` says how code with a spilled register reads beside the code it was made from. It follows
where the value of the register is at each place: in its word of the frame, in a temporary, or in
both. Whatever spilling guarantees (that the temporaries are new, that nothing else is mentioned or
written, what is live where) follows from it by induction, and so does the run of spilled code.
-/

set_option autoImplicit false

namespace SsaCompiler

/-- Where the value of a spilled register is. -/
inductive Whereabouts
  | memory
  /-- In memory and in a temporary. -/
  | both (t : Nat)
  | temp (t : Nat)
  deriving DecidableEq

/-- The temporary that holds the value. -/
def Whereabouts.temp? : Whereabouts → Option Nat
  | memory => none
  | both t | temp t => some t

/-- Code in which the virtual register `v` lives at an offset from the stack pointer, beside the code it
was made from. The temporaries are `fresh`. In `careful` code memory holds the value at every transfer,
which spilling guarantees if the register is not written behind transfers. -/
inductive Reloads (careful : Prop) (v : Nat) (offset : Word) (fresh : Nat → Prop) :
    Whereabouts → List Instr → List Instr → Prop
  | nil : Reloads careful v offset fresh .memory [] []
  | keep {i : Instr} {rest rest' : List Instr} : Operand.virtual v ∉ i.sources →
      Operand.virtual v ∉ i.defs → Reloads careful v offset fresh .memory rest rest' →
      Reloads careful v offset fresh .memory (i :: rest) (i :: rest')
  | load {t : Nat} {code code' : List Instr} : fresh t → Reloads careful v offset fresh (.both t) code code' →
      Reloads careful v offset fresh .memory code (.load (.virtual t) .sp offset false :: code')
  /-- A value that is about to be overwritten is not loaded. -/
  | enter {t : Nat} {i : Instr} {rest rest' : List Instr} : fresh t → Operand.virtual v ∉ i.sources →
      Operand.virtual v ∈ i.defs → Reloads careful v offset fresh (.temp t) rest rest' →
      Reloads careful v offset fresh .memory (i :: rest) (i.replace (.virtual v) (.virtual t) :: rest')
  | flush {t : Nat} {code code' : List Instr} : Reloads careful v offset fresh (.both t) code code' →
      Reloads careful v offset fresh (.temp t) code (.store (.virtual t) .sp offset :: code')
  | leave {t : Nat} {code code' : List Instr} : Reloads careful v offset fresh .memory code code' →
      Reloads careful v offset fresh (.both t) code code'
  | read {loc : Whereabouts} {t : Nat} {i : Instr} {rest rest' : List Instr} : loc.temp? = some t →
      Operand.virtual v ∉ i.defs → (careful → i.isTransfer = true → loc = .both t) →
      Reloads careful v offset fresh loc rest rest' →
      Reloads careful v offset fresh loc (i :: rest) (i.replace (.virtual v) (.virtual t) :: rest')
  | write {loc : Whereabouts} {t : Nat} {i : Instr} {rest rest' : List Instr} : loc.temp? = some t →
      Operand.virtual v ∈ i.defs → Reloads careful v offset fresh (.temp t) rest rest' →
      Reloads careful v offset fresh loc (i :: rest) (i.replace (.virtual v) (.virtual t) :: rest')

variable {i : Instr} {code code' : List Instr} {n t : Nat}

namespace Instr

/-- One virtual register in the place of another. -/
def renamed (v t : Nat) (op : Operand) : Operand := if op = .virtual v then .virtual t else op

/-- Replacing is renaming. -/
theorem replace_eq (v t : Nat) (i : Instr) : i.replace (.virtual v) (.virtual t) = i.mapRegisters (renamed v t) := rfl

/-- Prescribed registers keep their place. -/
theorem renamed_fixed (v t : Nat) (r : Register) : renamed v t (.fixed r) = .fixed r :=
  if_neg (by simp)

/-- Numbers are not renamed. -/
theorem mapOperand_renamed (v t : Nat) : mapOperand (renamed v t) = renamed v t := by
  funext op
  unfold mapOperand renamed
  cases op <;> simp [Operand.isRegister]

/-- The sources after replacing. -/
theorem sources_replace (v t : Nat) (i : Instr) :
    (i.replace (.virtual v) (.virtual t)).sources = i.sources.map (renamed v t) := by
  rw [replace_eq, sources_mapRegisters _ (renamed_fixed v t), mapOperand_renamed]

/-- The definitions after replacing. -/
theorem defs_replace (v t : Nat) (i : Instr) :
    (i.replace (.virtual v) (.virtual t)).defs = i.defs.map (renamed v t) := by
  rw [replace_eq, defs_mapRegisters _ (renamed_fixed v t), mapOperand_renamed]

/-- The destination after replacing. -/
theorem dst_replace (v t : Nat) (i : Instr) :
    (i.replace (.virtual v) (.virtual t)).dst? = i.dst?.map (renamed v t) := by
  rw [replace_eq, dst_mapRegisters _ (renamed_fixed v t), mapOperand_renamed]

variable {v : Nat} {budget : RegisterSet}

/-- A virtual register is renamed from itself or from the one that is replaced. -/
theorem renamed_eq_virtual {op : Operand} (h : renamed v t op = .virtual n) :
    (op = .virtual n ∧ n ≠ v) ∨ (op = .virtual v ∧ n = t) := by
  unfold renamed at h
  split at h
  · rename_i hv
    cases h
    exact .inr ⟨hv, rfl⟩
  · rename_i hv
    refine .inl ⟨h, ?_⟩
    rintro rfl
    exact hv h

/-- The node of a virtual register is the node of no other operand. -/
theorem ofOperand?_eq_virtual {op : Operand} (h : Node.ofOperand? budget op = some (Node.firstVirtual + n)) :
    op = .virtual n := by
  cases op with
  | «virtual» k => exact congrArg Operand.virtual (Nat.add_left_cancel (Option.some.inj h))
  | immediate c => cases h
  | fixed r | allocated r =>
    have hlt : r.toNat < Node.firstVirtual := r.index.isLt
    rw [Node.ofOperand?] at h
    split at h
    · have := Option.some.inj h
      omega
    · cases h

/-- The virtual registers among the sources are the virtual nodes that are read. -/
theorem mem_useNodes_virtual : Node.firstVirtual + n ∈ i.useNodes budget ↔ Operand.virtual n ∈ i.sources := by
  rw [useNodes, List.mem_filterMap]
  constructor
  · rintro ⟨op, hop, hn⟩
    exact ofOperand?_eq_virtual hn ▸ List.mem_of_mem_filter hop
  · exact fun h => ⟨.virtual n, List.mem_filter.2 ⟨h, rfl⟩, rfl⟩

/-- The virtual registers among the definitions are the virtual nodes that are written. -/
theorem mem_defNodes_virtual : Node.firstVirtual + n ∈ i.defNodes budget ↔ Operand.virtual n ∈ i.defs := by
  rw [defNodes, List.mem_filterMap]
  constructor
  · rintro ⟨op, hop, hn⟩
    exact ofOperand?_eq_virtual hn ▸ hop
  · exact fun h => ⟨.virtual n, h, rfl⟩

/-- An instruction mentions what it reads or writes. -/
theorem mentionsOperand_virtual :
    i.mentionsOperand (.virtual v) = true ↔ Operand.virtual v ∈ i.sources ∨ Operand.virtual v ∈ i.defs := by
  rw [mentionsOperand, Bool.or_eq_true, List.contains_iff_mem, List.contains_iff_mem, uses,
    List.mem_filter]
  simp [Operand.isRegister]

end Instr

/-- All that is written behind a transfer satisfies a condition. -/
def TailDefs (P : Operand → Prop) : List Instr → Prop
  | [] => True
  | i :: rest => (i.isTransfer = true → ∀ j ∈ rest, ∀ op ∈ j.defs, P op) ∧ TailDefs P rest

namespace TailDefs

variable {P Q : Operand → Prop}

theorem mono (h : TailDefs P code) (hPQ : ∀ op, P op → Q op) : TailDefs Q code := by
  induction code with
  | nil => trivial
  | cons i rest ih => exact ⟨fun hi j hj op hop => hPQ op (h.1 hi j hj op hop), ih h.2⟩

theorem append (h : TailDefs P (code ++ code')) : TailDefs P code' := by
  induction code with
  | nil => exact h
  | cons i rest ih => exact ih h.2

/-- The front of code with the property has it too. -/
theorem left (h : TailDefs P (code ++ code')) : TailDefs P code := by
  induction code with
  | nil => trivial
  | cons i rest ih => exact ⟨fun hi j hj => h.1 hi j (List.mem_append_left _ hj), ih h.2⟩

/-- The condition holds behind every transfer. -/
theorem split {pre rest : List Instr} (h : TailDefs P (pre ++ i :: rest)) (hi : i.isTransfer = true) :
    ∀ j ∈ rest, ∀ op ∈ j.defs, P op := h.append.1 hi

/-- Code has the property if it holds behind every transfer. -/
theorem of_split (h : ∀ pre i rest, code = pre ++ i :: rest → i.isTransfer = true →
    ∀ j ∈ rest, ∀ op ∈ j.defs, P op) : TailDefs P code := by
  induction code with
  | nil => trivial
  | cons i rest ih =>
    refine ⟨h [] i rest rfl, ih fun pre j rest' heq => h (i :: pre) j rest' ?_⟩
    rw [heq]
    rfl

end TailDefs

variable {loc : Whereabouts}

namespace Reloads

variable {careful : Prop} {v : Nat} {offset : Word} {fresh fresh' : Nat → Prop}

theorem mono (h : Reloads careful v offset fresh loc code code') (hf : ∀ t, fresh t → fresh' t) :
    Reloads careful v offset fresh' loc code code' := by
  induction h with
  | nil => exact .nil
  | keep hu hd _ ih => exact .keep hu hd ih
  | load ht _ ih => exact .load (hf _ ht) ih
  | enter ht hu hd _ ih => exact .enter (hf _ ht) hu hd ih
  | flush _ ih => exact .flush ih
  | leave _ ih => exact .leave ih
  | read hl hd ht _ ih => exact .read hl hd ht ih
  | write hl hd _ ih => exact .write hl hd ih

/-! ## Spilling gives such code -/

variable {run : List Instr}

/-- A run without writes, when the value is in memory and in the temporary. -/
theorem of_reads (hrest : Reloads careful v offset fresh .memory code code')
    (hrun : ∀ i ∈ run, Operand.virtual v ∉ i.defs) : Reloads careful v offset fresh (.both t) (run ++ code)
      (run.map (Instr.replace (.virtual v) (.virtual t)) ++ code') := by
  induction run with
  | nil => exact .leave hrest
  | cons i run ih =>
    exact .read rfl (hrun i List.mem_cons_self) (fun _ _ => rfl)
      (ih fun j hj => hrun j (List.mem_cons_of_mem _ hj))

/-- A run with a store behind its last write, from a place where the temporary holds the value. Without
a write in it, memory must hold the value too. -/
theorem of_withStore (hrest : Reloads careful v offset fresh .memory code code') (run : List Instr)
    (htail : careful → TailDefs (· ≠ .virtual v) run) : (∀ {loc : Whereabouts}, loc.temp? = some t →
      ((∀ i ∈ run, Operand.virtual v ∉ i.defs) → loc = .both t) →
      Reloads careful v offset fresh loc (run ++ code)
        (Spill.withStore (.virtual v) (.virtual t) offset run ++ code')) ∧
    ∀ {i : Instr}, Operand.virtual v ∈ i.defs → ∃ rest',
      Spill.withStore (.virtual v) (.virtual t) offset (i :: run) =
        i.replace (.virtual v) (.virtual t) :: rest' ∧
      Reloads careful v offset fresh (.temp t) (run ++ code) (rest' ++ code') := by
  induction run with
  | nil =>
    refine ⟨fun _ hclean => ?_, fun hd => ?_⟩
    · rw [hclean (by simp)]
      exact .leave hrest
    · refine ⟨[.store (.virtual t) .sp offset], ?_, .flush (.leave hrest)⟩
      rw [Spill.withStore, if_pos (by simpa using hd)]
      rfl
  | cons j run ih =>
    obtain ⟨ihread, ihwrite⟩ := ih fun hcare => (htail hcare).2
    have hread : ∀ {loc : Whereabouts}, loc.temp? = some t →
        ((∀ i ∈ j :: run, Operand.virtual v ∉ i.defs) → loc = .both t) →
        Reloads careful v offset fresh loc (j :: run ++ code)
          (Spill.withStore (.virtual v) (.virtual t) offset (j :: run) ++ code') := by
      intro loc hloc hclean
      by_cases hd : Operand.virtual v ∈ j.defs
      · obtain ⟨rest', heq, hrel⟩ := ihwrite hd
        rw [heq]
        exact .write hloc hd hrel
      · have hall : (∀ i ∈ run, Operand.virtual v ∉ i.defs) → loc = .both t := by
          refine fun hnone => hclean fun i hi => ?_
          rcases List.mem_cons.1 hi with rfl | hi
          · exact hd
          · exact hnone i hi
        rw [Spill.withStore, if_neg (by simp [hd])]
        refine .read hloc hd (fun hcare htransfer => hall fun i hi hid => ?_) (ihread hloc hall)
        exact (htail hcare).1 htransfer i hi _ hid rfl
    refine ⟨hread, fun {i} hd => ?_⟩
    by_cases hw : ∃ k ∈ j :: run, Operand.virtual v ∈ k.defs
    · refine ⟨Spill.withStore (.virtual v) (.virtual t) offset (j :: run), ?_, hread rfl fun hnone => ?_⟩
      · have hany : ((j :: run).any fun k => k.defs.contains (.virtual v)) = true := by simpa using hw
        conv_lhs => rw [Spill.withStore]
        rw [hany, if_neg (by simp)]
      · obtain ⟨k, hk, hkd⟩ := hw
        exact absurd hkd (hnone k hk)
    · have hnone : ∀ k ∈ j :: run, Operand.virtual v ∉ k.defs := fun k hk hkd => hw ⟨k, hk, hkd⟩
      refine ⟨.store (.virtual t) .sp offset ::
        (j :: run).map (Instr.replace (.virtual v) (.virtual t)), ?_, .flush (of_reads hrest hnone)⟩
      rw [Spill.withStore, if_pos (by simpa [hd] using hnone)]

/-- A run that does not read the old value begins by writing. -/
theorem readsOld_cons_eq_false (hi : i.mentionsOperand (.virtual v) = true)
    (h : Spill.readsOld (.virtual v) (i :: run) = false) :
    Operand.virtual v ∉ i.sources ∧ Operand.virtual v ∈ i.defs := by
  rw [Spill.readsOld, Bool.or_eq_false_iff] at h
  have hu : Operand.virtual v ∉ i.sources := by
    intro hmem
    have huses : i.uses.contains (.virtual v) = true := by
      rw [List.contains_iff_mem, Instr.uses, List.mem_filter]
      exact ⟨hmem, rfl⟩
    rw [huses] at h
    exact Bool.noConfusion h.1
  exact ⟨hu, (Instr.mentionsOperand_virtual.1 hi).resolve_left hu⟩

theorem of_reloadRun (ht : fresh t) (hrest : Reloads careful v offset fresh .memory code code')
    (hi : i.mentionsOperand (.virtual v) = true) (htail : careful → TailDefs (· ≠ .virtual v) (i :: run)) :
    Reloads careful v offset fresh .memory (i :: run ++ code)
      (Spill.reloadRun (.virtual v) (.virtual t) offset (i :: run) ++ code') := by
  rw [Spill.reloadRun]
  cases hold : Spill.readsOld (.virtual v) (i :: run) with
  | true =>
    rw [if_pos rfl]
    exact .load ht ((of_withStore hrest (i :: run) htail).1 rfl fun _ => rfl)
  | false =>
    obtain ⟨hu, hd⟩ := readsOld_cons_eq_false hi hold
    obtain ⟨rest', heq, hrel⟩ := (of_withStore (t := t) hrest run fun hcare => (htail hcare).2).2 hd
    rw [if_neg (by simp), heq]
    exact .enter ht hu hd hrel

end Reloads

/-- A function with more virtual registers for spill code, the blocks apart. -/
structure Enlarged (mf mf' : MachineFunction) : Prop where
  name : mf'.name = mf.name
  size : mf'.blocks.size = mf.blocks.size
  frameSize : mf'.frameSize = mf.frameSize
  count : mf.vregCount ≤ mf'.vregCount
  kept : ∀ t, mf.spillTemps.contains t = true → mf'.spillTemps.contains t = true
  old : ∀ t, t < mf.vregCount → mf'.spillTemps.contains t = mf.spillTemps.contains t
  new : ∀ t, mf.vregCount ≤ t → t < mf'.vregCount → mf'.spillTemps.contains t = true

namespace Enlarged

theorem refl (mf : MachineFunction) : Enlarged mf mf :=
  ⟨rfl, rfl, rfl, Nat.le_refl _, fun _ h => h, fun _ _ => rfl, fun _ h h' => absurd h' (Nat.not_lt.2 h)⟩

theorem trans {mf₁ mf₂ mf₃ : MachineFunction} (h : Enlarged mf₁ mf₂) (h' : Enlarged mf₂ mf₃) : Enlarged mf₁ mf₃ where
  name := h'.name.trans h.name
  size := h'.size.trans h.size
  frameSize := h'.frameSize.trans h.frameSize
  count := h.count.trans h'.count
  kept t ht := h'.kept t (h.kept t ht)
  old t ht := (h'.old t (ht.trans_le h.count)).trans (h.old t ht)
  new t ht ht' := by
    by_cases hlt : t < mf₂.vregCount
    · rw [h'.old t hlt]
      exact h.new t ht hlt
    · exact h'.new t (Nat.not_lt.1 hlt) ht'

/-- One more temporary. -/
theorem newSpillTemp (mf : MachineFunction) : Enlarged mf mf.newSpillTemp.2 := by
  refine ⟨rfl, rfl, rfl, Nat.le_succ _, fun t ht => ?_, fun t ht => ?_, fun t ht ht' => ?_⟩
  · change (mf.spillTemps.insert mf.vregCount).contains t = true
    rw [NatSet.contains_insert, ht, Bool.true_or]
  · change (mf.spillTemps.insert mf.vregCount).contains t = _
    rw [NatSet.contains_insert, beq_false_of_ne (Nat.ne_of_gt ht), Bool.or_false]
  · change (mf.spillTemps.insert mf.vregCount).contains t = true
    obtain rfl : t = mf.vregCount := by
      change t < mf.vregCount + 1 at ht'
      omega
    rw [NatSet.contains_insert, beq_self_eq_true, Bool.or_true]

end Enlarged

/-- The virtual registers that one function has and another one has not. -/
def Between (mf mf' : MachineFunction) (t : Nat) : Prop := mf.vregCount ≤ t ∧ t < mf'.vregCount

/-- Reloading a list of instructions. -/
theorem reloadInsts_spec {careful : Prop} (v : Nat) (offset : Word) (mf : MachineFunction) (insts : List Instr)
    (htail : careful → TailDefs (· ≠ .virtual v) insts) :
    Enlarged mf (Spill.reloadInsts (.virtual v) offset mf insts).2 ∧
      (Spill.reloadInsts (.virtual v) offset mf insts).2.blocks = mf.blocks ∧
      Reloads careful v offset (Between mf (Spill.reloadInsts (.virtual v) offset mf insts).2) .memory insts
        (Spill.reloadInsts (.virtual v) offset mf insts).1 := by
  induction hn : insts.length using Nat.strong_induction_on generalizing mf insts with
  | _ n ih =>
    subst hn
    cases insts with
    | nil =>
      rw [Spill.reloadInsts]
      exact ⟨.refl mf, rfl, .nil⟩
    | cons i rest =>
      rw [Spill.reloadInsts]
      by_cases hi : i.mentionsOperand (.virtual v) = true
      · rw [if_pos hi]
        dsimp only
        set more := (rest.takeWhile (Instr.mentionsOperand (.virtual v))).take (Spill.spanLimit - 1) with hmore
        have hlen : (i :: more).length - 1 = more.length := rfl
        have hsplit : rest = more ++ rest.drop more.length := by
          have hpre : more <+: rest :=
            (List.take_prefix _ _).trans (List.takeWhile_prefix _)
          exact (List.prefix_iff_eq_append.1 hpre).symm
        rw [hlen]
        set rest₂ := rest.drop more.length with hrest₂
        have htail₂ : careful → TailDefs (· ≠ .virtual v) rest₂ := by
          intro hcare
          have htail' := (htail hcare).2
          rw [hsplit] at htail'
          exact htail'.append
        have hshort : rest₂.length < (i :: rest).length := by
          rw [hrest₂, List.length_drop, List.length_cons]
          omega
        obtain ⟨hgrow, hblocks, hreload⟩ := ih _ hshort mf.newSpillTemp.2 rest₂ htail₂ rfl
        set out := Spill.reloadInsts (.virtual v) offset mf.newSpillTemp.2 rest₂ with hout
        refine ⟨(Enlarged.newSpillTemp mf).trans hgrow, hblocks, ?_⟩
        have hcount : mf.vregCount < out.2.vregCount := hgrow.count
        have hrel : Reloads careful v offset (Between mf out.2) .memory rest₂ out.1 :=
          hreload.mono fun t ht => ⟨(Nat.le_succ _).trans ht.1, ht.2⟩
        have htail₁ : careful → TailDefs (· ≠ .virtual v) (i :: more) := by
          rw [hsplit, ← List.cons_append] at htail
          exact fun hcare => (htail hcare).left
        have hrun := Reloads.of_reloadRun (t := mf.vregCount) ⟨Nat.le_refl _, hcount⟩ hrel hi htail₁
        nth_rewrite 1 [hsplit]
        exact hrun
      · rw [if_neg hi]
        dsimp only
        obtain ⟨hgrow, hblocks, hreload⟩ := ih rest.length (Nat.lt_succ_self _) mf rest (fun hcare => (htail hcare).2) rfl
        have hnot := fun h => hi (Instr.mentionsOperand_virtual.2 h)
        exact ⟨hgrow, hblocks, .keep (fun h => hnot (.inl h)) (fun h => hnot (.inr h)) hreload⟩

/-- The instructions of blocks after those of one are changed. -/
theorem instsOf_modifyInsts (mf : MachineFunction) (b c : Nat) (change : List Instr → List Instr) :
    (mf.modifyInsts b change).instsOf c =
      if b = c ∧ b < mf.blocks.size then change (mf.instsOf c) else mf.instsOf c := by
  rw [MachineFunction.instsOf, MachineFunction.instsOf, MachineFunction.block, MachineFunction.block,
    MachineFunction.modifyInsts, getD_modify]
  split <;> rfl

variable {b : Nat}

/-- Reloading the instructions of a block changes no other block. -/
theorem instsOf_reloadBlock (v : Nat) (offset : Word) {mf : MachineFunction} (hb : b < mf.blocks.size) (c : Nat) :
    (Spill.reloadBlock (.virtual v) offset mf b).instsOf c =
      if b = c then (Spill.reloadInsts (.virtual v) offset mf (mf.instsOf b)).1 else mf.instsOf c := by
  obtain ⟨-, hblocks, -⟩ := @reloadInsts_spec False v offset mf (mf.instsOf b) False.elim
  set out := Spill.reloadInsts (.virtual v) offset mf (mf.instsOf b) with hout
  have hone : Spill.reloadBlock (.virtual v) offset mf b = out.2.modifyInsts b fun _ => out.1 := rfl
  have hsame : out.2.instsOf c = mf.instsOf c := by
    rw [MachineFunction.instsOf, MachineFunction.instsOf, MachineFunction.block, MachineFunction.block, hblocks]
  rw [hone, instsOf_modifyInsts, hsame]
  simp [hblocks ▸ hb]

/-- Reloading the instructions of a block makes temporaries only. -/
theorem enlarged_reloadBlock (v : Nat) (offset : Word) (mf : MachineFunction) (b : Nat) :
    Enlarged mf (Spill.reloadBlock (.virtual v) offset mf b) := by
  obtain ⟨hgrow, -, -⟩ := @reloadInsts_spec False v offset mf (mf.instsOf b) False.elim
  refine hgrow.trans ⟨rfl, Array.size_modify, rfl, Nat.le_refl _, fun _ h => h, fun _ _ => rfl, fun t h h' => ?_⟩
  exact absurd h' (Nat.not_lt.2 h)

/-- Reloading the instructions of some blocks. -/
theorem foldl_reloadBlock_spec {careful : Prop} (v : Nat) (offset : Word) (blocks : List Nat) (hnodup : blocks.Nodup) :
    ∀ mf : MachineFunction, (∀ b ∈ blocks, b < mf.blocks.size) →
      (∀ b ∈ blocks, careful → TailDefs (· ≠ .virtual v) (mf.instsOf b)) →
      let mf' := blocks.foldl (Spill.reloadBlock (.virtual v) offset) mf
      Enlarged mf mf' ∧ (∀ b ∉ blocks, mf'.instsOf b = mf.instsOf b) ∧
        ∀ b ∈ blocks, Reloads careful v offset (Between mf mf') .memory (mf.instsOf b) (mf'.instsOf b) := by
  induction blocks with
  | nil =>
    intro mf _ _
    exact ⟨.refl mf, fun _ _ => rfl, by simp⟩
  | cons b blocks ih =>
    intro mf hsize htail
    obtain ⟨hfresh, hnodup'⟩ := List.nodup_cons.1 hnodup
    obtain ⟨hgrow, hblocks, hreload⟩ := reloadInsts_spec v offset mf (mf.instsOf b)
      (htail b List.mem_cons_self)
    have hinsts := instsOf_reloadBlock v offset (hsize b List.mem_cons_self)
    have hgrow' := enlarged_reloadBlock v offset mf b
    have hother : ∀ c ∈ blocks, (Spill.reloadBlock (.virtual v) offset mf b).instsOf c = mf.instsOf c := by
      intro c hc
      rw [hinsts, if_neg]
      rintro rfl
      exact hfresh hc
    obtain ⟨hgrow₂, hrest, hreload₂⟩ := ih hnodup' (Spill.reloadBlock (.virtual v) offset mf b)
      (fun c hc => by
        rw [hgrow'.size]
        exact hsize c (List.mem_cons_of_mem _ hc))
      (fun c hc => by
        rw [hother c hc]
        exact htail c (List.mem_cons_of_mem _ hc))
    refine ⟨hgrow'.trans hgrow₂, fun c hc => ?_, fun c hc => ?_⟩
    · rw [List.foldl_cons, hrest c fun h => hc (List.mem_cons_of_mem _ h), hinsts, if_neg]
      rintro rfl
      exact hc List.mem_cons_self
    · rw [List.foldl_cons]
      rcases List.mem_cons.1 hc with rfl | hc
      · rw [hrest c hfresh, hinsts, if_pos rfl]
        exact hreload.mono fun t ht => ⟨ht.1, ht.2.trans_le hgrow₂.count⟩
      · have hrel := hreload₂ c hc
        rw [hother c hc] at hrel
        exact hrel.mono fun t ht => ⟨hgrow'.count.trans ht.1, ht.2⟩

/-- What spilling a register gives: one more word in the frame, and code that goes through temporaries
that were not there before. -/
structure Spilled (careful : Prop) (mf : MachineFunction) (v : Nat) (mf' : MachineFunction) : Prop where
  name : mf'.name = mf.name
  size : mf'.blocks.size = mf.blocks.size
  frame : Word.add? mf.frameSize 4 = some mf'.frameSize
  count : mf.vregCount ≤ mf'.vregCount
  kept : ∀ t, mf.spillTemps.contains t = true → mf'.spillTemps.contains t = true
  old : ∀ t, t < mf.vregCount → mf'.spillTemps.contains t = mf.spillTemps.contains t
  new : ∀ t, mf.vregCount ≤ t → t < mf'.vregCount → mf'.spillTemps.contains t = true
  code : ∀ b, Reloads careful v mf.frameSize (Between mf mf') .memory (mf.instsOf b) (mf'.instsOf b)

/-- Spilling a register; the code is careful if the register is not written behind a transfer. -/
theorem spilled_of_spill {careful : Prop} {mf mf' : MachineFunction} {v : Nat} (h : mf.spill v = .ok mf')
    (htail : ∀ b, careful → TailDefs (· ≠ .virtual v) (mf.instsOf b)) : Spilled careful mf v mf' := by
  unfold MachineFunction.spill MachineFunction.allocFrame at h
  cases hframe : Word.add? mf.frameSize 4 with
  | none =>
    rw [hframe] at h
    cases h
  | some size =>
    rw [hframe] at h
    cases h
    set mf₁ : MachineFunction := { mf with frameSize := size } with hmf₁
    obtain ⟨hgrow, hrest, hcode⟩ := foldl_reloadBlock_spec v mf.frameSize mf₁.blockIds List.nodup_range mf₁
      (fun b hb => List.mem_range.1 hb) (fun b _ => htail b)
    refine ⟨hgrow.name, hgrow.size, hframe.trans (congrArg some hgrow.frameSize.symm), hgrow.count, hgrow.kept, hgrow.old,
      hgrow.new, fun b => ?_⟩
    by_cases hb : b ∈ mf₁.blockIds
    · exact hcode b hb
    · rw [show mf.instsOf b = mf₁.instsOf b from rfl, hrest b hb]
      have hempty : mf₁.instsOf b = [] := by
        by_contra hne
        exact hb (List.mem_range.2 (MachineFunction.lt_size_of_instsOf hne))
      rw [hempty]
      exact .nil

/-! ## What spilled code mentions -/

/-- Where an instruction of spilled code comes from, when some temporaries may stand for the register. -/
inductive Origin (v : Nat) (offset : Word) (temp : Nat → Prop) (code : List Instr) : Instr → Prop
  | kept {j : Instr} : j ∈ code → Operand.virtual v ∉ j.sources → Operand.virtual v ∉ j.defs →
      Origin v offset temp code j
  | renamed {j : Instr} {t : Nat} : j ∈ code → temp t →
      Origin v offset temp code (j.replace (.virtual v) (.virtual t))
  | load {t : Nat} : temp t → Origin v offset temp code (.load (.virtual t) .sp offset false)
  | store {t : Nat} : temp t → Origin v offset temp code (.store (.virtual t) .sp offset)

theorem Origin.mono {v : Nat} {offset : Word} {temp temp' : Nat → Prop} (h : Origin v offset temp code i)
    (htemp : ∀ t, temp t → temp' t) (hcode : code ⊆ code') : Origin v offset temp' code' i := by
  cases h with
  | kept hj hu hd => exact .kept (hcode hj) hu hd
  | renamed hj ht => exact .renamed (hcode hj) (htemp _ ht)
  | load ht => exact .load (htemp _ ht)
  | store ht => exact .store (htemp _ ht)

namespace Reloads

variable {careful : Prop} {v : Nat} {offset : Word} {fresh : Nat → Prop}

section

variable (h : Reloads careful v offset fresh loc code code')

include h

/-- Every instruction of spilled code comes from the code, or moves a temporary from or to memory. -/
theorem origin : ∀ j' ∈ code', Origin v offset (fun t => fresh t ∨ loc.temp? = some t) code j' := by
  induction h with
  | nil => simp
  | keep hu hd _ ih =>
    intro j' hj'
    rcases List.mem_cons.1 hj' with rfl | hj'
    · exact .kept List.mem_cons_self hu hd
    · exact (ih j' hj').mono (fun _ => id) (List.subset_cons_self _ _)
  | load ht _ ih =>
    intro j' hj'
    rcases List.mem_cons.1 hj' with rfl | hj'
    · exact .load (.inl ht)
    · exact (ih j' hj').mono (fun k hk => .inl (hk.elim id fun hk => Option.some.inj hk ▸ ht)) fun _ => id
  | enter ht _ _ _ ih =>
    intro j' hj'
    rcases List.mem_cons.1 hj' with rfl | hj'
    · exact .renamed List.mem_cons_self (.inl ht)
    · exact (ih j' hj').mono (fun k hk => .inl (hk.elim id fun hk => Option.some.inj hk ▸ ht))
        (List.subset_cons_self _ _)
  | flush _ ih =>
    intro j' hj'
    rcases List.mem_cons.1 hj' with rfl | hj'
    · exact .store (.inr rfl)
    · exact ih j' hj'
  | leave _ ih => exact fun j' hj' => (ih j' hj').mono (fun k hk => hk.elim .inl fun hk => nomatch hk) fun _ => id
  | read hl _ _ _ ih =>
    intro j' hj'
    rcases List.mem_cons.1 hj' with rfl | hj'
    · exact .renamed List.mem_cons_self (.inr hl)
    · exact (ih j' hj').mono (fun _ => id) (List.subset_cons_self _ _)
  | write hl _ _ ih =>
    intro j' hj'
    rcases List.mem_cons.1 hj' with rfl | hj'
    · exact .renamed List.mem_cons_self (.inr hl)
    · exact (ih j' hj').mono (fun _ hk => hk.imp_right fun hk => hl.trans hk) (List.subset_cons_self _ _)

/-- Spilled code writes what the code wrote, and temporaries. -/
theorem mem_defs : ∀ j' ∈ code', ∀ op ∈ j'.defs, (op ≠ .virtual v ∧ ∃ j ∈ code, op ∈ j.defs) ∨
      ∃ t, op = .virtual t ∧ (fresh t ∨ loc.temp? = some t) := by
  intro j' hj' op hop
  cases h.origin j' hj' with
  | kept hj _ hd => exact .inl ⟨fun hv => hd (hv ▸ hop), j', hj, hop⟩
  | @renamed j t hj ht =>
    rw [Instr.defs_replace, List.mem_map] at hop
    obtain ⟨o, ho, rfl⟩ := hop
    by_cases hov : o = .virtual v
    · rw [Instr.renamed, if_pos hov]
      exact .inr ⟨t, rfl, ht⟩
    · rw [Instr.renamed, if_neg hov]
      exact .inl ⟨hov, j, hj, ho⟩
  | @load t ht => exact .inr ⟨t, List.mem_singleton.1 hop, ht⟩
  | store => cases hop

/-- Spilled code reads the virtual registers that the code read, and temporaries. -/
theorem mem_sources : ∀ j' ∈ code', ∀ n, Operand.virtual n ∈ j'.sources →
      (n ≠ v ∧ ∃ j ∈ code, Operand.virtual n ∈ j.sources) ∨ fresh n ∨ loc.temp? = some n := by
  intro j' hj' n hn
  cases h.origin j' hj' with
  | kept hj hu _ => exact .inl ⟨fun hv => hu (hv ▸ hn), j', hj, hn⟩
  | @renamed j t hj ht =>
    rw [Instr.sources_replace, List.mem_map] at hn
    obtain ⟨o, ho, hon⟩ := hn
    rcases Instr.renamed_eq_virtual hon with ⟨rfl, hne⟩ | ⟨-, rfl⟩
    · exact .inl ⟨hne, j, hj, ho⟩
    · exact .inr ht
  | load => simp [Instr.sources, Operand.sp] at hn
  | store ht =>
    simp only [Instr.sources, Operand.sp, List.mem_cons, Operand.virtual.injEq, reduceCtorEq,
      List.not_mem_nil, or_false] at hn
    exact .inr (hn ▸ ht)

theorem mem_targets : ∀ j' ∈ code', ∀ b, j'.target? = some b → ∃ j ∈ code, j.target? = some b := by
  intro j' hj' b hb
  cases h.origin j' hj' with
  | kept hj => exact ⟨j', hj, hb⟩
  | @renamed j t hj =>
    rw [Instr.replace_eq, Instr.target_mapRegisters] at hb
    exact ⟨j, hj, hb⟩
  | load | store => cases hb

/-- Spilled code keeps its exits. -/
theorem exists_exit (hi : i ∈ code) (hexit : i.fallsThrough = false) : ∃ j ∈ code', j.fallsThrough = false := by
  have hrenamed : ∀ t, (i.replace (.virtual v) (.virtual t)).fallsThrough = false := fun t =>
    (Instr.fallsThrough_mapRegisters _ i).trans hexit
  induction h with
  | nil => cases hi
  | keep _ _ _ ih =>
    rcases List.mem_cons.1 hi with rfl | hi
    · exact ⟨_, List.mem_cons_self, hexit⟩
    · exact (ih hi).imp fun j hj => ⟨List.mem_cons_of_mem _ hj.1, hj.2⟩
  | load _ _ ih | flush _ ih => exact (ih hi).imp fun j hj => ⟨List.mem_cons_of_mem _ hj.1, hj.2⟩
  | leave _ ih => exact ih hi
  | enter _ _ _ _ ih | read _ _ _ _ ih | write _ _ _ ih =>
    rcases List.mem_cons.1 hi with rfl | hi
    · exact ⟨_, List.mem_cons_self, hrenamed _⟩
    · exact (ih hi).imp fun j hj => ⟨List.mem_cons_of_mem _ hj.1, hj.2⟩

/-- Behind a transfer spilled code writes what the code wrote there, and temporaries. -/
theorem tailDefs {P : Operand → Prop} (htail : TailDefs P code)
    (hnew : ∀ t, fresh t ∨ loc.temp? = some t → P (.virtual t)) : TailDefs P code' := by
  have hwritten : ∀ {loc : Whereabouts} {rest rest' : List Instr}, Reloads careful v offset fresh loc rest rest' →
      (∀ t, fresh t ∨ loc.temp? = some t → P (.virtual t)) → (∀ j ∈ rest, ∀ op ∈ j.defs, P op) →
      ∀ j' ∈ rest', ∀ op ∈ j'.defs, P op := by
    intro loc rest rest' hrel hnew hall j' hj' op hop
    rcases hrel.mem_defs j' hj' op hop with ⟨-, j, hj, hjd⟩ | ⟨t, rfl, ht⟩
    · exact hall j hj op hjd
    · exact hnew t ht
  induction h with
  | nil => trivial
  | keep _ _ hrel ih =>
    exact ⟨fun hi => hwritten hrel hnew (htail.1 hi), ih htail.2 hnew⟩
  | @load t code code' ht _ ih =>
    refine ⟨(fun hi => nomatch hi), ih htail fun k hk => hnew k ?_⟩
    exact .inl (hk.elim id fun hk => Option.some.inj hk ▸ ht)
  | @enter t i rest rest' ht _ hd hrel ih =>
    have hnew' : ∀ k, fresh k ∨ Whereabouts.temp? (.temp t) = some k → P (.virtual k) :=
      fun k hk => hnew k (.inl (hk.elim id fun hk => Option.some.inj hk ▸ ht))
    refine ⟨fun hi => hwritten hrel hnew' (htail.1 ?_), ih htail.2 hnew'⟩
    rwa [Instr.replace_eq, Instr.isTransfer_mapRegisters] at hi
  | flush _ ih => exact ⟨(fun hi => nomatch hi), ih htail hnew⟩
  | leave _ ih => exact ih htail fun k hk => hnew k (hk.elim .inl fun hk => nomatch hk)
  | read _ _ _ hrel ih =>
    refine ⟨fun hi => hwritten hrel hnew (htail.1 ?_), ih htail.2 hnew⟩
    rwa [Instr.replace_eq, Instr.isTransfer_mapRegisters] at hi
  | @write loc t i rest rest' hl hd hrel ih =>
    have hnew' : ∀ k, fresh k ∨ Whereabouts.temp? (.temp t) = some k → P (.virtual k) :=
      fun k hk => hnew k (hk.imp_right fun hk => hl.trans hk)
    refine ⟨fun hi => hwritten hrel hnew' (htail.1 ?_), ih htail.2 hnew'⟩
    rwa [Instr.replace_eq, Instr.isTransfer_mapRegisters] at hi

end

variable {mf : MachineFunction} {budget : RegisterSet}

/-- What one instruction of spilled code makes live, when the same is known behind it. -/
theorem live_head (hnv : n ≠ v) {j : Instr} {rest' : List Instr}
    (hj : Operand.virtual n ∈ j.sources ∨ (Operand.virtual n ∉ j.defs ∧
      ((j.fallsThrough = true ∧ ∀ loc code, Reloads careful v offset fresh loc code rest' →
        mf.LiveFrom budget (Node.firstVirtual + n) code ∨ loc.temp? = some n) ∨
      ∃ b, j.target? = some b ∧ mf.LiveFrom budget (Node.firstVirtual + n) (mf.instsOf b))))
    (h : Reloads careful v offset fresh loc code code') (hcode : code' = j :: rest') :
    mf.LiveFrom budget (Node.firstVirtual + n) code ∨ loc.temp? = some n := by
  have hdefs : ∀ {i : Instr} {t : Nat}, Operand.virtual n ∉ (i.replace (.virtual v) (.virtual t)).defs →
      Node.firstVirtual + n ∉ i.defNodes budget := by
    intro i t hnot hmem
    rw [Instr.mem_defNodes_virtual] at hmem
    refine hnot ?_
    rw [Instr.defs_replace, List.mem_map]
    exact ⟨_, hmem, if_neg (by simpa using hnv)⟩
  have hgone : ∀ {i : Instr} {t b : Nat}, Operand.virtual v ∈ i.defs →
      (i.replace (.virtual v) (.virtual t)).target? = some b → False := by
    intro i t b hd ht
    rw [Instr.replace_eq, Instr.target_mapRegisters] at ht
    rw [MachineFunction.defs_of_isTransfer (MachineFunction.isTransfer_of_target ht)] at hd
    cases hd
  have hmask : ∀ {i : Instr} {t : Nat}, Operand.virtual v ∈ i.defs →
      Operand.virtual n ∉ (i.replace (.virtual v) (.virtual t)).defs → t ≠ n := by
    rintro i t hd hnot rfl
    refine hnot ?_
    rw [Instr.defs_replace, List.mem_map]
    exact ⟨_, hd, if_pos rfl⟩
  induction h with
  | nil => cases hcode
  | @keep i rest rest'' hu hd hrel ih =>
    cases hcode
    rcases hj with hsrc | ⟨hnot, ⟨hfall, hlive⟩ | ⟨b, hb, hlive⟩⟩
    · exact .inl (.use (Instr.mem_useNodes_virtual.2 hsrc))
    · exact .inl (.pass hfall (fun h => hnot (Instr.mem_defNodes_virtual.1 h))
        ((hlive _ _ hrel).resolve_right (by simp [Whereabouts.temp?])))
    · exact .inl (.jump hb (fun h => hnot (Instr.mem_defNodes_virtual.1 h)) hlive)
  | @load t code code' ht hrel ih =>
    cases hcode
    rcases hj with hsrc | ⟨hnot, ⟨-, hlive⟩ | ⟨b, hb, -⟩⟩
    · simp [Instr.sources, Operand.sp] at hsrc
    · refine .inl ((hlive _ _ hrel).resolve_right fun htn => hnot ?_)
      obtain rfl := Option.some.inj htn
      exact List.mem_singleton_self _
    · cases hb
  | @enter t i rest rest'' ht hu hd hrel ih =>
    cases hcode
    rcases hj with hsrc | ⟨hnot, ⟨hfall, hlive⟩ | ⟨b, hb, -⟩⟩
    · rw [Instr.sources_replace, List.mem_map] at hsrc
      obtain ⟨o, ho, hon⟩ := hsrc
      rcases Instr.renamed_eq_virtual hon with ⟨rfl, -⟩ | ⟨rfl, -⟩
      · exact .inl (.use (Instr.mem_useNodes_virtual.2 ho))
      · exact absurd ho hu
    · rw [Instr.replace_eq, Instr.fallsThrough_mapRegisters] at hfall
      refine .inl (.pass hfall (hdefs hnot) ((hlive _ _ hrel).resolve_right fun htn => ?_))
      exact hmask hd hnot (Option.some.inj htn)
    · exact (hgone hd hb).elim
  | @flush t code code' hrel ih =>
    cases hcode
    rcases hj with hsrc | ⟨hnot, ⟨-, hlive⟩ | ⟨b, hb, -⟩⟩
    · simp only [Instr.sources, Operand.sp, List.mem_cons, Operand.virtual.injEq, reduceCtorEq,
        List.not_mem_nil, or_false] at hsrc
      exact .inr (congrArg some hsrc.symm)
    · exact (hlive _ _ hrel).imp_right id
    · cases hb
  | @leave t code code' hrel ih =>
    exact .inl ((ih hcode).resolve_right (by simp [Whereabouts.temp?]))
  | @read loc t i rest rest'' hl hd htr hrel ih =>
    cases hcode
    rcases hj with hsrc | ⟨hnot, ⟨hfall, hlive⟩ | ⟨b, hb, hlive⟩⟩
    · rw [Instr.sources_replace, List.mem_map] at hsrc
      obtain ⟨o, ho, hon⟩ := hsrc
      rcases Instr.renamed_eq_virtual hon with ⟨rfl, -⟩ | ⟨-, rfl⟩
      · exact .inl (.use (Instr.mem_useNodes_virtual.2 ho))
      · exact .inr hl
    · rw [Instr.replace_eq, Instr.fallsThrough_mapRegisters] at hfall
      exact (hlive _ _ hrel).imp_left fun hlive => .pass hfall (hdefs hnot) hlive
    · rw [Instr.replace_eq, Instr.target_mapRegisters] at hb
      exact .inl (.jump hb (hdefs hnot) hlive)
  | @write loc t i rest rest'' hl hd hrel ih =>
    cases hcode
    rcases hj with hsrc | ⟨hnot, ⟨hfall, hlive⟩ | ⟨b, hb, -⟩⟩
    · rw [Instr.sources_replace, List.mem_map] at hsrc
      obtain ⟨o, ho, hon⟩ := hsrc
      rcases Instr.renamed_eq_virtual hon with ⟨rfl, -⟩ | ⟨-, rfl⟩
      · exact .inl (.use (Instr.mem_useNodes_virtual.2 ho))
      · exact .inr hl
    · rw [Instr.replace_eq, Instr.fallsThrough_mapRegisters] at hfall
      refine .inl (.pass hfall (hdefs hnot) ((hlive _ _ hrel).resolve_right fun htn => ?_))
      exact hmask hd hnot (Option.some.inj htn)
    · exact (hgone hd hb).elim

/-- What is live in spilled code was live in the code, or is the temporary that holds the value. -/
theorem live {mf' : MachineFunction}
    (hmf : ∀ b, Reloads careful v offset fresh .memory (mf.instsOf b) (mf'.instsOf b)) (hnv : n ≠ v) {x : Nat}
    (hlive : mf'.LiveFrom budget x code') (hx : x = Node.firstVirtual + n) :
    ∀ loc code, Reloads careful v offset fresh loc code code' →
      mf.LiveFrom budget (Node.firstVirtual + n) code ∨ loc.temp? = some n := by
  induction hlive with
  | use huse =>
    intro loc code hrel
    rw [hx] at huse
    exact live_head hnv (.inl (Instr.mem_useNodes_virtual.1 huse)) hrel rfl
  | pass hfall hnot _ ih =>
    intro loc code hrel
    rw [hx] at hnot
    have hnot' := fun h => hnot (Instr.mem_defNodes_virtual.2 h)
    exact live_head hnv (.inr ⟨hnot', .inl ⟨hfall, ih⟩⟩) hrel rfl
  | @jump i rest b hb hnot _ ih =>
    intro loc code hrel
    rw [hx] at hnot
    have hnot' := fun h => hnot (Instr.mem_defNodes_virtual.2 h)
    have hstart := (ih .memory _ (hmf b)).resolve_right (by simp [Whereabouts.temp?])
    exact live_head hnv (.inr ⟨hnot', .inr ⟨b, hb, hstart⟩⟩) hrel rfl

end Reloads

/-! ## Functions that registers can be allocated for -/

namespace MachineFunction

/-- Behind a transfer only spill temporaries are written, and only for the rest of the block. -/
def TailTemporary (mf : MachineFunction) (budget : RegisterSet) : Prop :=
  ∀ b, TailDefs (fun op => ∃ t, op = .virtual t ∧ mf.spillTemps.contains t = true ∧
    ∀ c, ¬ mf.LiveFrom budget (Node.firstVirtual + t) (mf.instsOf c)) (mf.instsOf b)

/-- What every round of the allocator finds and leaves. -/
structure Allocatable (mf : MachineFunction) (budget : RegisterSet) : Prop where
  /-- Nothing moves the stack pointer. -/
  keepsSp : ∀ i ∈ mf.placedInsts, ∀ op ∈ i.defs, op.register? ≠ some .sp
  first : mf.WritesBeforeReads budget
  exits : mf.HasExits
  tail : mf.TailTemporary budget

/-- All virtual registers that are mentioned are counted. -/
def Counted (mf : MachineFunction) : Prop :=
  ∀ i ∈ mf.placedInsts, ∀ n, Operand.virtual n ∈ i.sources ∨ Operand.virtual n ∈ i.defs → n < mf.vregCount

/-- Registers are counted by looking at each of them. -/
instance (mf : MachineFunction) : Decidable mf.Counted :=
  decidable_of_iff (∀ i ∈ mf.placedInsts, ∀ op ∈ i.sources ++ i.defs, ∀ n ∈ op.virtual?, n < mf.vregCount) <| by
    refine forall₂_congr fun i _ => ⟨fun h n hn => h (.virtual n) (List.mem_append.2 hn) n rfl, fun h op hop n hn => ?_⟩
    cases op with
    | «virtual» m => exact Option.some.inj hn ▸ h m (List.mem_append.1 hop)
    | fixed r | allocated r | immediate c => cases hn

variable {careful : Prop} {mf mf' : MachineFunction} {budget : RegisterSet}

/-- What is written behind a transfer is live at the start of no block. -/
theorem TailTemporary.tailLocal (h : mf.TailTemporary budget) : mf.TailLocal budget := by
  intro b pre i rest hb hi j hj x hx c
  have htail := h b
  rw [hb] at htail
  obtain ⟨op, hop, hnode⟩ := List.mem_filterMap.1 hx
  obtain ⟨t, rfl, -, hdead⟩ := htail.split hi j hj op hop
  obtain rfl := Option.some.inj hnode
  exact hdead c

/-- Where only transfers follow transfers, nothing is written behind them. -/
theorem TransfersLast.tailTemporary (h : mf.TransfersLast) : mf.TailTemporary budget := by
  refine fun b => TailDefs.of_split fun pre i rest hb hi j hj op hop => ?_
  rw [defs_of_isTransfer (h b pre i rest hb hi j hj)] at hop
  cases hop

/-- A function as selection leaves it. -/
theorem TransfersLast.allocatable (h : mf.TransfersLast) (hfirst : mf.WritesBeforeReads budget) (hexits : mf.HasExits)
    (hsp : ∀ i ∈ mf.placedInsts, ∀ op ∈ i.defs, op.register? ≠ some .sp) :
    mf.Allocatable budget := ⟨hsp, hfirst, hexits, h.tailTemporary⟩

variable {v : Nat}

/-- A register that is no spill temporary is not written behind a transfer. -/
theorem TailTemporary.tailDefs_ne (h : mf.TailTemporary budget) (hv : mf.spillTemps.contains v = false) (b : Nat) :
    TailDefs (· ≠ .virtual v) (mf.instsOf b) := by
  refine (h b).mono ?_
  rintro op ⟨t, rfl, ht, -⟩ heq
  obtain rfl := Operand.virtual.inj heq
  exact Bool.noConfusion (hv.symm.trans ht)

/-- Spilling keeps all virtual registers counted. -/
theorem Counted.spilled (h : mf.Counted) (hs : Spilled careful mf v mf') : mf'.Counted := by
  have hold : ∀ b, ∀ j ∈ mf.instsOf b, ∀ n, Operand.virtual n ∈ j.sources ∨ Operand.virtual n ∈ j.defs →
      n < mf'.vregCount := fun b j hj n hn =>
    (h j (mem_placedInsts.2 ⟨b, hj⟩) n hn).trans_le hs.count
  intro i hi n hn
  obtain ⟨b, hb⟩ := mem_placedInsts.1 hi
  rcases hn with hn | hn
  · rcases (hs.code b).mem_sources i hb n hn with ⟨-, j, hj, hjn⟩ | hfresh | htemp
    · exact hold b j hj n (.inl hjn)
    · exact hfresh.2
    · cases htemp
  · rcases (hs.code b).mem_defs i hb _ hn with ⟨-, j, hj, hjn⟩ | ⟨t, ht, hfresh | htemp⟩
    · exact hold b j hj n (.inr hjn)
    · obtain rfl := Operand.virtual.inj ht
      exact hfresh.2
    · cases htemp

/-- The spilled register is gone. -/
theorem not_liveFrom_spilled (hv : v < mf.vregCount) (hs : Spilled careful mf v mf') (b : Nat) :
    ¬ mf'.LiveFrom budget (Node.firstVirtual + v) (mf'.instsOf b) := by
  intro hlive
  obtain ⟨i, hi, huse⟩ := Liveness.exists_use_of_liveFrom hlive fun j hj => mem_placedInsts.2 ⟨b, hj⟩
  obtain ⟨c, hc⟩ := mem_placedInsts.1 hi
  rcases (hs.code c).mem_sources i hc v (Instr.mem_useNodes_virtual.1 huse) with ⟨hne, -⟩ | hfresh | htemp
  · exact hne rfl
  · exact absurd hfresh.1 (Nat.not_le.2 hv)
  · cases htemp

/-- What is live at the start of a block of spilled code was live there before. -/
theorem liveFrom_of_spilled (hv : v < mf.vregCount) (hs : Spilled careful mf v mf')
    (hlive : mf'.LiveFrom budget (Node.firstVirtual + n) (mf'.instsOf b)) :
    mf.LiveFrom budget (Node.firstVirtual + n) (mf.instsOf b) := by
  have hnv : n ≠ v := by
    rintro rfl
    exact not_liveFrom_spilled hv hs b hlive
  exact (Reloads.live hs.code hnv hlive rfl .memory _ (hs.code b)).resolve_right
    (by simp [Whereabouts.temp?])

/-- Spilling writes temporaries behind transfers only. -/
theorem TailTemporary.spilled (h : mf.TailTemporary budget) (hcount : mf.Counted) (hv : v < mf.vregCount)
    (hs : Spilled careful mf v mf') : mf'.TailTemporary budget := by
  -- A temporary is not live at the start of any block: it was not even there before.
  have hlocal : ∀ t, Between mf mf' t → ∀ c,
      ¬ mf'.LiveFrom budget (Node.firstVirtual + t) (mf'.instsOf c) := by
    intro t ht c hlive
    have hold := liveFrom_of_spilled hv hs hlive
    obtain ⟨i, hi, huse⟩ := Liveness.exists_use_of_liveFrom hold fun j hj => mem_placedInsts.2 ⟨c, hj⟩
    exact absurd (hcount i hi t (.inl (Instr.mem_useNodes_virtual.1 huse))) (Nat.not_lt.2 ht.1)
  intro b
  have hmono := (h b).mono (Q := fun op => ∃ t, op = .virtual t ∧
      mf'.spillTemps.contains t = true ∧
      ∀ c, ¬ mf'.LiveFrom budget (Node.firstVirtual + t) (mf'.instsOf c)) (by
    rintro op ⟨t, rfl, ht, hdead⟩
    exact ⟨t, rfl, hs.kept t ht, fun c hlive => hdead c (liveFrom_of_spilled hv hs hlive)⟩)
  refine (hs.code b).tailDefs hmono fun t ht => ⟨t, rfl, ?_, hlocal t ?_⟩
  · exact hs.new t (ht.resolve_right (by simp [Whereabouts.temp?])).1
      (ht.resolve_right (by simp [Whereabouts.temp?])).2
  · exact ht.resolve_right (by simp [Whereabouts.temp?])

/-- Spilling keeps a function one that registers can be allocated for. -/
theorem Allocatable.spilled (h : mf.Allocatable budget) (hcount : mf.Counted) (hv : v < mf.vregCount)
    (hs : Spilled careful mf v mf') : mf'.Allocatable budget := by
  refine ⟨fun i hi op hop hsp => ?_, fun n hlive => h.first n (liveFrom_of_spilled hv hs hlive), fun b hb => ?_,
    h.tail.spilled hcount hv hs⟩
  · obtain ⟨b, hb⟩ := mem_placedInsts.1 hi
    rcases (hs.code b).mem_defs i hb op hop with ⟨-, j, hj, hjd⟩ | ⟨t, rfl, -⟩
    · exact h.keepsSp j (mem_placedInsts.2 ⟨b, hj⟩) op hjd hsp
    · cases hsp
  · obtain ⟨i, hi, hexit⟩ := h.exits b (hs.size ▸ hb)
    exact (hs.code b).exists_exit hi hexit

end MachineFunction

end SsaCompiler
