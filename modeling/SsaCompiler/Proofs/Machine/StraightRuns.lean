import SsaCompiler.Proofs.Machine.AssignedRun
import SsaCompiler.Proofs.Machine.ParallelCopies

/-!
# Running straight code

Code that leaves no block is run without regard to what comes behind it (`Executes`). The front of the entry is loaded
with addresses after the other code is selected, so loads may stand among straight code. They change nothing that the
code reads, hence the code with loads among it runs like the code without (`LoadedCode.run`).
-/

set_option autoImplicit false

namespace SsaCompiler

open Runs

variable {W : Type}

/-- An operand that straight code may write: no number, and no register for the address of a label. -/
def Selection.Writable (s : Selection) : Operand → Prop
  | .virtual n => ∀ name, ¬ s.Belongs n (.label name)
  | .fixed _ | .allocated _ => True
  | .immediate _ => False

/-- What is not a number is a register. -/
theorem Selection.Writable.isRegister {s : Selection} {dst : Option Operand} (h : ∀ op, dst = some op → s.Writable op) :
    (dst.any fun op => !op.isRegister) = false := by
  cases dst with
  | none => rfl
  | some op =>
    cases op with
    | immediate c => exact absurd (h _ rfl) id
    | _ => rfl

/-- The state after an effect, but for what is to be run. -/
def MachineState.apply (σ : MachineState W) (dst : Option Operand) (e : Instr.Effect W) : MachineState W :=
  { σ.settle dst e with memory := e.memory, world := e.world }

/-- Straight code takes a state to another one and shows events on the way. -/
inductive Executes (env : MachineEnv W) (s : Selection) :
    List Instr → MachineState W → List MachineEvent → MachineState W → Prop
  | nil (σ : MachineState W) : Executes env s [] σ [] σ
  | cons {i : Instr} {code : List Instr} {σ σ' : MachineState W} {e : Instr.Effect W} {t : List MachineEvent}
      (hdst : ∀ op, i.dst? = some op → s.Writable op)
      (heffect : i.perform env (i.sources.map σ.read) σ.plainRegs σ.memory σ.world = .ok e)
      (hrest : Executes env s code (σ.apply i.dst? e) t σ') : Executes env s (i :: code) σ (e.events ++ t) σ'

variable {e : Instr.Effect W}

namespace Executes

variable {env : MachineEnv W} {s : Selection} {σ σ₁ σ₂ : MachineState W} {code code' : List Instr} {t t' : List MachineEvent}

theorem append (h : Executes env s code σ t σ₁) (h' : Executes env s code' σ₁ t' σ₂) :
    Executes env s (code ++ code') σ (t ++ t') σ₂ := by
  induction h with
  | nil => exact h'
  | cons hdst heffect _ ih =>
    rw [List.append_assoc]
    exact .cons hdst heffect (ih h')

/-- Code without events after code. -/
theorem silent (h : Executes env s code σ t σ₁) (h' : Executes env s code' σ₁ [] σ₂) :
    Executes env s (code ++ code') σ t σ₂ := by
  have hrun := h.append h'
  rwa [List.append_nil] at hrun

variable {i : Instr}

theorem single (hdst : ∀ op, i.dst? = some op → s.Writable op)
    (heffect : i.perform env (i.sources.map σ.read) σ.plainRegs σ.memory σ.world = .ok e) :
    Executes env s [i] σ e.events (σ.apply i.dst? e) := by
  have hrun := Executes.cons hdst heffect (.nil _)
  rwa [List.append_nil] at hrun

/-- An instruction that only computes a word. -/
theorem value {o : Operand} {x : Word} (hdst : i.dst? = some o) (hop : s.Writable o)
    (hvalue : i.perform env (i.sources.map σ.read) σ.plainRegs σ.memory σ.world =
      .ok { value := some x, memory := σ.memory, world := σ.world }) : Executes env s [i] σ [] (σ.write o x) := by
  have hrun := single (s := s) (by simp [hdst, hop]) hvalue
  rw [hdst] at hrun
  cases o <;> exact hrun

end Executes

/-! ## Code with loads among it -/

/-- Code and what comes behind it, with loads among both. -/
theorem LoadedCode.split {s : Selection} {base base' code : List Instr} (h : LoadedCode s (base ++ base') code) :
    ∃ front back, code = front ++ back ∧ LoadedCode s base front ∧ LoadedCode s base' back := by
  generalize hall : base ++ base' = all at h
  induction h generalizing base with
  | nil =>
    obtain ⟨rfl, rfl⟩ := List.append_eq_nil_iff.1 hall
    exact ⟨[], [], rfl, .nil, .nil⟩
  | load hn _ ih =>
    obtain ⟨front, back, rfl, hfront, hback⟩ := ih hall
    exact ⟨_ :: front, back, rfl, .load hn hfront, hback⟩
  | @keep i rest code hrest ih =>
    cases base with
    | nil =>
      subst hall
      exact ⟨[], _, rfl, .nil, .keep hrest⟩
    | cons j base =>
      obtain ⟨rfl, hrest⟩ := List.cons.inj hall
      obtain ⟨front, back, rfl, hfront, hback⟩ := ih hrest
      exact ⟨_ :: front, back, rfl, .keep hfront, hback⟩

/-- The first instruction has loads in front of it. -/
theorem LoadedCode.first {s : Selection} {i : Instr} {base code : List Instr} (h : LoadedCode s (i :: base) code) :
    ∃ loads back, code = loads ++ i :: back ∧ LoadedCode s [] loads := by
  generalize hall : i :: base = all at h
  induction h with
  | nil => cases hall
  | load hn _ ih =>
    obtain ⟨loads, back, rfl, hloads⟩ := ih hall
    exact ⟨_ :: loads, back, rfl, .load hn hloads⟩
  | keep =>
    cases hall
    exact ⟨[], _, rfl, .nil⟩

/-- Loading an address that is known. -/
theorem Instr.perform_loadAddr {env : MachineEnv W} {dst : Operand} {name : String} {a : Word}
    (h : env.address name = some a) {regs : Register → Word} {memory : Memory} {world : W} :
    (Instr.loadAddr dst name).perform env [] regs memory world =
      .ok { value := some a, memory, world } := by
  simp only [Instr.perform, h]

/-- What is not of the code is a load. -/
theorem LoadedCode.mem_or {s : Selection} {base code : List Instr} (h : LoadedCode s base code) :
    ∀ i ∈ code, i ∈ base ∨ s.IsLoad i := by
  induction h with
  | nil => exact List.forall_mem_nil _
  | load hn _ ih => exact List.forall_mem_cons.2 ⟨.inr ⟨_, _, rfl, hn⟩, ih⟩
  | keep _ ih =>
    exact List.forall_mem_cons.2 ⟨.inl List.mem_cons_self, fun i hi => (ih i hi).imp_left (List.mem_cons_of_mem _)⟩

section Agreement

variable {count : Nat} {σ τ : MachineState W} {i : Instr}

variable {changed : Nat → Prop}

/-- The words that an instruction reads. -/
theorem Instr.Calm.sources_eq (hi : i.Calm count) (h : σ.ChangesOnly changed τ) (hle : ∀ n, changed n → count ≤ n) :
    i.sources.map τ.read = i.sources.map σ.read :=
  List.map_congr_left fun op hop => h.read fun n hn hchanged =>
    Nat.not_le.2 (hi.2 op (List.mem_append_left _ hop) n hn) (hle n hchanged)

/-- The registers that callees see. -/
theorem MachineState.ChangesOnly.plainRegs_eq (h : σ.ChangesOnly changed τ) : τ.plainRegs = σ.plainRegs := by
  funext r
  unfold MachineState.plainRegs MachineState.reg
  rw [h.regs]

/-- An effect on states that agree. -/
theorem MachineState.ChangesOnly.apply (h : σ.ChangesOnly changed τ) (dst : Option Operand) (e : Instr.Effect W) :
    (σ.apply dst e).ChangesOnly changed (τ.apply dst e) := by
  have hwrite : ∀ (u v : MachineState W) (op : Operand) (x : Word), v.regs = u.regs →
      (∀ n, ¬ changed n → v.vregs n = u.vregs n) → (v.write op x).regs = (u.write op x).regs ∧
        ∀ n, ¬ changed n → (v.write op x).vregs n = (u.write op x).vregs n := by
    intro u v op x hregs hvregs
    cases op with
    | fixed r | allocated r =>
      refine ⟨?_, hvregs⟩
      change Function.update v.regs r x = Function.update u.regs r x
      rw [hregs]
    | immediate c => exact ⟨hregs, hvregs⟩
    | «virtual» k =>
      refine ⟨hregs, fun n hn => ?_⟩
      change Function.update v.vregs k x n = Function.update u.vregs k x n
      rw [Function.update_apply, Function.update_apply, hvregs n hn]
  obtain ⟨hregs, hvregs⟩ : (τ.settle dst e).regs = (σ.settle dst e).regs ∧
      ∀ n, ¬ changed n → (τ.settle dst e).vregs n = (σ.settle dst e).vregs n := by
    unfold settle
    cases e.overwritten with
    | none =>
      dsimp only
      split
      · exact hwrite σ τ _ _ h.regs h.vregs
      · exact ⟨h.regs, h.vregs⟩
    | some new =>
      have hover : (τ.overwrite new).regs = (σ.overwrite new).regs := by
        unfold overwrite
        rw [h.regs]
      dsimp only
      split
      · exact hwrite (σ.overwrite new) (τ.overwrite new) _ _ hover h.vregs
      · exact ⟨hover, h.vregs⟩
  exact ⟨hregs, rfl, rfl, hvregs⟩

variable {dst : Option Operand}

/-- An effect changes no virtual register but its destination. -/
theorem MachineState.vregs_apply {n : Nat} (hn : dst ≠ some (.virtual n)) : (σ.apply dst e).vregs n = σ.vregs n := by
  have hwrite : ∀ (u : MachineState W) (op : Operand) (x : Word), op ≠ .virtual n → (u.write op x).vregs n = u.vregs n := by
    intro u op x hop
    cases op with
    | «virtual» k => exact Function.update_of_ne (fun heq => hop (congrArg _ heq.symm)) _ _
    | fixed | allocated | immediate => rfl
  change (σ.settle dst e).vregs n = σ.vregs n
  unfold settle
  cases e.overwritten <;> dsimp only <;> split <;>
    first | exact hwrite _ _ _ fun heq => hn (heq ▸ rfl) | rfl

/-- The state after an instruction that stays in its block. -/
theorem MachineState.after_eq_apply {mf : MachineFunction} {rest : List Instr} (htarget : e.target = none) :
    σ.after mf dst e rest = { σ.apply dst e with code := rest } := by
  unfold after apply
  rw [htarget, Option.getD_none, ← MachineState.block_settle]

end Agreement

/-- The registers of all labels have their addresses, or they are loaded by code that is still to be run. -/
def Selection.Loads (s : Selection) (env : MachineEnv W) (τ : MachineState W) (code : List Instr) : Prop :=
  ∀ n name, s.Belongs n (.label name) → env.address name = some (τ.vregs n) ∨ .loadAddr (.virtual n) name ∈ code

/-- A register for a label that came later. -/
def Selection.Added (s s' : Selection) (n : Nat) : Prop := s.code.vregCount ≤ n ∧ ∃ name, s'.Belongs n (.label name)

section Loaded

variable {s s' : Selection} (hext : s.Extends s') (mf : MachineFunction) {env : MachineEnv W}
  (henv : ∀ n name, s'.Belongs n (.label name) → ∃ a, env.address name = some a) {base code rest : List Instr}
  {σ σ' τ : MachineState W} {t : List MachineEvent}

include hext henv

variable {tail : List Instr}

/-- **Loads among straight code** change nothing that the code reads: the code does the same as without them. Behind it the
addresses are loaded of the labels whose loads were among it. -/
theorem LoadedCode.run (h : LoadedCode s' base code) (hbase : ∀ i ∈ base, i.Calm s.code.vregCount)
    (hrun : Executes env s base σ t σ') (hloaded : s.Loads env σ []) (hagree : σ.ChangesOnly (s.Added s') τ)
    (hs : s'.Sound) (hloads : s'.Loads env τ (code ++ rest)) (hcode : τ.code = code ++ tail) :
    ∃ τ', Steps (mf.step env) τ t τ' ∧ τ'.code = tail ∧ σ'.ChangesOnly (s.Added s') τ' ∧
      s'.Loads env τ' rest := by
  have hlabel : ∀ {n name}, s'.Belongs n (.label name) → n < s.code.vregCount → s.Belongs n (.label name) :=
    fun hn hlt => (hext.fresh _ _ hn).resolve_right (Nat.not_le.2 hlt)
  induction h generalizing σ τ t with
  | nil =>
    cases hrun
    exact ⟨τ, .refl τ, hcode, hagree, hloads⟩
  | @load n name base code hn hrest ih =>
    obtain ⟨a, ha⟩ := henv n name hn
    have hstep : mf.step env τ = .next [] { τ with vregs := Function.update τ.vregs n a, code := code ++ tail } := by
      exact step_of_value hcode rfl (Instr.perform_loadAddr ha)
    have hsame : σ.ChangesOnly (s.Added s')
        { τ with vregs := Function.update τ.vregs n a, code := code ++ tail } := by
      refine ⟨hagree.regs, hagree.memory, hagree.world, fun k hk => ?_⟩
      by_cases hkn : k = n
      · -- A label of the code has its address already.
        subst hkn
        have hlt : k < s.code.vregCount := Nat.not_le.1 fun hle => hk ⟨hle, name, hn⟩
        have haddr := (hloaded k name (hlabel hn hlt)).resolve_right List.not_mem_nil
        rw [ha] at haddr
        exact (Function.update_self k a τ.vregs).trans (Option.some.inj haddr)
      · exact (Function.update_of_ne hkn a τ.vregs).trans (hagree.vregs k hk)
    have hmore : s'.Loads env { τ with vregs := Function.update τ.vregs n a, code := code ++ tail } (code ++ rest) := by
      intro k other hk
      by_cases hkn : k = n
      · subst hkn
        cases hs.single k _ _ hk hn
        exact .inl (ha.trans (congrArg some (Function.update_self k a τ.vregs).symm))
      · rcases hloads k other hk with haddr | hmem
        · exact .inl (haddr.trans (congrArg some (Function.update_of_ne hkn a τ.vregs).symm))
        · refine .inr ((List.mem_cons.1 hmem).resolve_left fun heq => ?_)
          cases heq
          exact hkn rfl
    obtain ⟨τ', hsteps, htail, hagree', hloads'⟩ := ih hbase hrun hloaded hsame hmore rfl
    exact ⟨τ', Steps.append (.single hstep) hsteps, htail, hagree', hloads'⟩
  | @keep i base code hrest ih =>
    cases hrun with
    | @cons _ _ _ _ e t hdst heffect hrun =>
      obtain ⟨hi, hbase'⟩ := List.forall_mem_cons.1 hbase
      have htarget : e.target = none := by
        cases htarget : e.target with
        | none => rfl
        | some b =>
          have hleaves := MachineFunction.isTransfer_of_target ((Instr.perform_ok heffect).2.1 b htarget)
          rw [hi.1] at hleaves
          cases hleaves
      have hstep : mf.step env τ = .next e.events { τ.apply i.dst? e with code := code ++ tail } := by
        rw [← MachineState.after_eq_apply htarget]
        refine MachineFunction.step_of_ok hcode (Selection.Writable.isRegister hdst) ?_
        rw [hi.sources_eq hagree fun _ hn => hn.1, hagree.plainRegs_eq, hagree.memory, hagree.world]
        exact heffect
      have hdefs : ∀ {n name}, s'.Belongs n (.label name) → i.dst? ≠ some (.virtual n) := by
        intro n name hn hd
        have hlt := hi.2 _ (List.mem_append_right _ (Instr.mem_defs_of_dst hd)) n rfl
        exact hdst _ hd name (hlabel hn hlt)
      have hloaded' : s.Loads env (σ.apply i.dst? e) [] := by
        intro n name hn
        rw [MachineState.vregs_apply (hdefs (hext.kept _ _ hn))]
        exact hloaded n name hn
      have hmore : s'.Loads env { τ.apply i.dst? e with code := code ++ tail } (code ++ rest) := by
        intro n name hn
        rcases hloads n name hn with haddr | hmem
        · exact .inl (haddr.trans (congrArg some (MachineState.vregs_apply (hdefs hn)).symm))
        · refine .inr ((List.mem_cons.1 hmem).resolve_left fun heq => ?_)
          subst heq
          exact hdefs hn rfl
      have happly := hagree.apply i.dst? e
      obtain ⟨τ', hsteps, htail, hagree', hloads'⟩ := ih hbase' hrun hloaded'
        (τ := { τ.apply i.dst? e with code := code ++ tail }) ⟨happly.regs, rfl, rfl, happly.vregs⟩ hmore rfl
      exact ⟨τ', Steps.append (.single hstep) hsteps, htail, hagree', hloads'⟩

/-- Straight code that ends the run does so with loads among it. -/
theorem LoadedCode.done {i : Instr} {behind : List Instr} {o : MachineOutcome}
    (h : LoadedCode s' (base ++ i :: behind) code) (hbase : ∀ j ∈ base ++ i :: behind, j.Calm s.code.vregCount)
    (hrun : Executes env s base σ t σ') (hdst : ∀ op, i.dst? = some op → s.Writable op)
    (hdone : i.perform env (i.sources.map σ'.read) σ'.plainRegs σ'.memory σ'.world = .error o)
    (hloaded : s.Loads env σ []) (hloaded' : s.Loads env σ' []) (hagree : σ.ChangesOnly (s.Added s') τ)
    (hs : s'.Sound) (hloads : s'.Loads env τ (code ++ rest)) (hcode : τ.code = code ++ tail) :
    ∃ τ' rest, Steps (mf.step env) τ t τ' ∧ τ'.code = i :: rest ∧ mf.step env τ' = .done o := by
  obtain ⟨front, back, rfl, hfront, hback⟩ := h.split
  obtain ⟨loads, more, rfl, hnone⟩ := hback.first
  obtain ⟨hbase', hbehind⟩ := List.forall_mem_append.1 hbase
  obtain ⟨hi, -⟩ := List.forall_mem_cons.1 hbehind
  have hstart : τ.code = front ++ (loads ++ (i :: more ++ tail)) := by rw [hcode]; simp
  rw [List.append_assoc, List.append_assoc] at hloads
  obtain ⟨τ₁, hsteps, hrest, hagree₁, hloads₁⟩ :=
    hfront.run hext mf henv hbase' hrun hloaded hagree hs hloads hstart
  obtain ⟨τ₂, hsteps', hrest', hagree₂, -⟩ := hnone.run hext mf henv (List.forall_mem_nil _) (.nil σ') hloaded' hagree₁ hs
    hloads₁ hrest
  refine ⟨τ₂, _, ?_, hrest', MachineFunction.step_of_error hrest' (Selection.Writable.isRegister hdst) ?_⟩
  · have hall := Steps.append hsteps hsteps'
    rwa [List.append_nil] at hall
  · rw [hi.sources_eq hagree₂ fun _ hn => hn.1, hagree₂.plainRegs_eq, hagree₂.memory, hagree₂.world]
    exact hdone

end Loaded

end SsaCompiler
