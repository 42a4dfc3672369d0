import SsaCompiler.Proofs.Machine.Colors

/-!
# Running with the registers that were assigned

A function whose virtual registers were replaced by registers that `Separates` them, and whose idle
copies were dropped, runs like the function itself. The two states are related by `Holds`: registers
outside the budget, memory and world agree, and every node that is live holds its value in the
register it got. What is not live may differ.
-/

set_option autoImplicit false

namespace SsaCompiler

variable {i : Instr} {code : List Instr} {values : List Word} {m : Memory} {x : Nat} {op : Operand} {r : Register}
variable {regs : Register → Word}

namespace Instr

variable {W : Type}

/-- What an instruction that goes on can do: it falls through or goes to its target, and it has a word
for its destination. -/
theorem perform_ok {env : MachineEnv W} {w : W} {e : Effect W} (h : i.perform env values regs m w = .ok e) :
    (e.target = none → i.fallsThrough = true) ∧ (∀ b, e.target = some b → i.target? = some b) ∧
      (i.dst?.isSome = true → e.value.isSome = true) ∧
      (e.overwritten.isSome = true → i.dst? = none) := by
  rcases values with _ | ⟨a, _ | ⟨b, _ | ⟨c, l⟩⟩⟩ <;> cases i <;>
    simp only [perform] at h <;> (try split at h) <;> cases h <;>
    simp [fallsThrough, target?, dst?]

end Instr

section Steps

variable {W : Type} {mf : MachineFunction} {env : MachineEnv W} {s u : MachineState W} {rest : List Instr}
  {events : List MachineEvent}

/-- Where control goes behind an instruction. -/
theorem code_of_step (hc : s.code = i :: rest) (hstep : mf.step env s = .next events u) :
    (i.fallsThrough = true ∧ u.block = s.block ∧ u.code = rest) ∨
      ∃ b, i.target? = some b ∧ u.block = b ∧ u.code = mf.instsOf b := by
  unfold MachineFunction.step at hstep
  rw [hc] at hstep
  dsimp only at hstep
  split at hstep
  · cases hstep
  · split at hstep
    · rename_i e he
      cases hstep
      obtain ⟨hfall, hjump, -, -⟩ := Instr.perform_ok he
      rw [MachineState.code_after]
      cases ht : e.target with
      | none => exact .inl ⟨hfall ht, congrArg (Option.getD · s.block) ht, rfl⟩
      | some b => exact .inr ⟨b, hjump b ht, congrArg (Option.getD · s.block) ht, rfl⟩
    · cases hstep

/-- The exit of the current block is still to be run. -/
def MachineState.BeforeExit (s : MachineState W) (mf : MachineFunction) : Prop :=
  s.block < mf.blocks.size → ∃ i ∈ s.code, i.fallsThrough = false

namespace MachineState.BeforeExit

/-- Every block is entered before its exit. -/
theorem next (h : s.BeforeExit mf) (hexits : mf.HasExits) (hstep : mf.step env s = .next events u) :
    u.BeforeExit mf := by
  intro hu
  cases hc : s.code with
  | nil =>
    rw [MachineFunction.step_of_end hc] at hstep
    obtain ⟨-, -, rfl⟩ := MachineFunction.fallThrough_eq_next hstep
    exact hexits _ hu
  | cons i rest =>
    rcases code_of_step hc hstep with ⟨hfall, hblock, hcode⟩ | ⟨b, -, hblock, hcode⟩
    · obtain ⟨j, hj, hexit⟩ := h (hblock ▸ hu)
      rw [hc, List.mem_cons] at hj
      rcases hj with rfl | hj
      · exact Bool.noConfusion (hfall.symm.trans hexit)
      · exact ⟨j, hcode ▸ hj, hexit⟩
    · rw [hcode]
      exact hexits b (hblock ▸ hu)

/-- Before the exit of a block there is something to run. -/
theorem le_block (h : s.BeforeExit mf) (hc : s.code = []) : mf.blocks.size ≤ s.block := by
  by_contra hlt
  obtain ⟨i, hi, -⟩ := h (Nat.lt_of_not_le hlt)
  rw [hc] at hi
  cases hi

/-- Where no exit is missing, there is no next block at the end of the code. -/
theorem step_of_end (h : s.BeforeExit mf) (hc : s.code = []) : mf.step env s = .done .fault := by
  have hlast := h.le_block hc
  rw [MachineFunction.step_of_end hc, MachineFunction.fallThrough, if_neg (by omega)]

end MachineState.BeforeExit

end Steps

namespace Instr

/-- The nodes that an instruction writes are that of its destination: callees leave the general
registers alone. -/
theorem dst_of_mem_defNodes {budget : RegisterSet} (hbudget : budget.IsGeneral) (h : x ∈ i.defNodes budget) :
    ∃ op, i.dst? = some op ∧ Node.ofOperand? budget op = some x := by
  rw [defNodes, List.mem_filterMap] at h
  obtain ⟨op, hop, hx⟩ := h
  cases i with
  | call callee argRegs stackArgs =>
    rw [defs, List.mem_map] at hop
    obtain ⟨r, hr, rfl⟩ := hop
    rw [Node.ofOperand?] at hx
    split at hx
    · rename_i hin
      have hgen := hbudget r hin
      have hclobber : ∀ q ∈ callClobbers, q.isGeneral = false := by decide
      rw [hclobber r hr] at hgen
      cases hgen
    · cases hx
  | _ => all_goals simp_all [defs, dst?]

end Instr

/-- The operands that are nodes: virtual registers, and the registers of the budget. -/
theorem Node.ofOperand?_cases {budget : RegisterSet} (h : Node.ofOperand? budget op = some x) :
    (∃ n, op = .virtual n ∧ x = Node.firstVirtual + n) ∨
      ∃ r, op.register? = some r ∧ x = r.toNat ∧ budget.contains r = true := by
  cases op with
  | «virtual» n => exact .inl ⟨n, rfl, (Option.some.inj h).symm⟩
  | immediate c => cases h
  | fixed r | allocated r =>
    rw [Node.ofOperand?] at h
    split at h
    · rename_i hin
      exact .inr ⟨r, rfl, (Option.some.inj h).symm, hin⟩
    · cases h

namespace MachineState

variable {W : Type} {budget : RegisterSet}

/-- The word in a node. -/
def node (s : MachineState W) (x : Nat) : Word :=
  match Register.ofNat? x with
  | some r => s.reg r
  | none => s.vregs (x - Node.firstVirtual)

/-- The node of a physical register. -/
theorem node_register (s : MachineState W) (r : Register) : s.node r.toNat = s.reg r := by
  rw [node, Register.ofNat?_toNat]

theorem node_virtual (s : MachineState W) (n : Nat) : s.node (Node.firstVirtual + n) = s.vregs n := by
  have hnone : Register.ofNat? (Node.firstVirtual + n) = none := by
    rw [Register.ofNat?, dif_neg (by simp [Node.firstVirtual])]
  rw [node, hnone, Nat.add_sub_cancel_left]

/-- Reading a physical register. -/
theorem read_of_register? (s : MachineState W) (h : op.register? = some r) : s.read op = s.reg r := by
  cases op with
  | fixed q | allocated q =>
    obtain rfl := Option.some.inj h
    rfl
  | «virtual» n => cases h
  | immediate c => cases h

/-- An operand that is a node holds the word of the node. -/
theorem read_of_node (s : MachineState W) (h : Node.ofOperand? budget op = some x) : s.read op = s.node x := by
  rcases Node.ofOperand?_cases h with ⟨n, rfl, rfl⟩ | ⟨r, hr, rfl, -⟩
  · exact (node_virtual s n).symm
  · rw [read_of_register? s hr, node_register]

variable {v : Word}

/-- The registers after writing a physical register other than the one that is always zero. -/
theorem reg_write_of_register? (s : MachineState W) (h : op.register? = some r) (q : Register) :
    (s.write op v).reg q = if q = r ∧ q ≠ .zero then v else s.reg q := by
  have hwrite : (s.write op v).regs = Function.update s.regs r v := by
    cases op with
    | fixed q | allocated q =>
      obtain rfl := Option.some.inj h
      rfl
    | «virtual» n => cases h
    | immediate c => cases h
  rw [reg, reg, hwrite]
  by_cases hz : q = .zero
  · simp [hz]
  · by_cases hq : q = r
    · subst hq
      simp [hz]
    · simp [hz, hq]

/-- A node is not the register that is always zero. -/
theorem ne_zero_of_isGeneral (h : r.isGeneral = true) : r ≠ .zero := by
  rintro rfl
  revert h
  decide

/-- The nodes after writing an operand that is a node. -/
theorem node_write (s : MachineState W) (hbudget : budget.IsGeneral) (h : Node.ofOperand? budget op = some x)
    (y : Nat) : (s.write op v).node y = if y = x then v else s.node y := by
  rcases Node.ofOperand?_cases h with ⟨n, rfl, rfl⟩ | ⟨r, hr, rfl, hin⟩
  · unfold node
    cases hy : Register.ofNat? y with
    | some r =>
      have hne : y ≠ Node.firstVirtual + n := by
        have hlt : r.toNat < Node.firstVirtual := r.index.isLt
        have hyr := Register.ofNat?_eq_some_iff.1 hy
        omega
      rw [if_neg hne]
      rfl
    | none =>
      have hge : Node.firstVirtual ≤ y := by
        by_contra hlt
        rw [Register.ofNat?, dif_pos (by simpa [Node.firstVirtual] using hlt)] at hy
        cases hy
      change Function.update s.vregs n v (y - Node.firstVirtual) = _
      by_cases hyn : y = Node.firstVirtual + n
      · rw [if_pos hyn, hyn, Nat.add_sub_cancel_left, Function.update_self]
      · rw [if_neg hyn, Function.update_of_ne (by omega)]
  · unfold node
    cases hy : Register.ofNat? y with
    | some q =>
      have hyq := Register.ofNat?_eq_some_iff.1 hy
      dsimp only
      rw [reg_write_of_register? s hr]
      by_cases hqr : q = r
      · subst hqr
        rw [if_pos ⟨rfl, ne_zero_of_isGeneral (hbudget q hin)⟩, if_pos hyq]
      · rw [if_neg fun h => hqr h.1, if_neg fun hyr => hqr (Register.toNat_inj.1 (hyq.symm.trans hyr))]
    | none =>
      have hne : y ≠ r.toNat := by
        rintro rfl
        rw [Register.ofNat?_toNat] at hy
        cases hy
      rw [if_neg hne]
      cases op with
      | «virtual» n => cases hr
      | _ => rfl

end MachineState

/-- The registers that are no nodes. -/
theorem Node.register_of_ofOperand?_none {budget : RegisterSet} (h : Node.ofOperand? budget op = none)
    (hop : op.isRegister = true) : ∃ r, op.register? = some r ∧ budget.contains r = false := by
  cases op with
  | «virtual» n => cases h
  | immediate c => cases hop
  | fixed r | allocated r =>
    refine ⟨r, rfl, ?_⟩
    rw [Node.ofOperand?] at h
    split at h
    · cases h
    · rename_i hin
      simpa using hin

/-- A physical register keeps its place. -/
theorem MachineEdit.colored_of_register? {assignment : Array Register} (h : op.register? = some r) :
    MachineEdit.colored assignment op = op := by
  cases op with
  | «virtual» n => cases h
  | _ => rfl

/-- A node goes to its register. -/
theorem MachineEdit.register?_colored {budget : RegisterSet} {registers : List Register}
    (h : Node.ofOperand? budget op = some x) (hr : nodeRegister? registers x = some r) :
    (MachineEdit.colored registers.toArray op).register? = some r := by
  rcases Node.ofOperand?_cases h with ⟨n, rfl, rfl⟩ | ⟨q, hq, rfl, -⟩
  · rw [nodeRegister?_virtual] at hr
    rw [MachineEdit.colored, List.getElem?_toArray, hr]
    rfl
  · rw [nodeRegister?_register] at hr
    rw [MachineEdit.colored_of_register? hq, hq, hr]

/-- Assigning registers keeps registers and numbers apart. -/
theorem MachineEdit.isRegister_colored (assignment : Array Register) (op : Operand) :
    (MachineEdit.colored assignment op).isRegister = op.isRegister := by
  cases op with
  | «virtual» n =>
    rw [MachineEdit.colored]
    split <;> rfl
  | _ => rfl

/-- Assigning registers does not look at numbers. -/
theorem MachineEdit.mapOperand_colored (assignment : Array Register) (op : Operand) :
    Instr.mapOperand (MachineEdit.colored assignment) op = MachineEdit.colored assignment op := by
  cases op with
  | immediate c => rfl
  | _ => rfl

namespace Separates

variable {mf : MachineFunction} {budget : RegisterSet} {registers : List Register}

/-- Every known node gets a register of the budget. -/
theorem exists_register (h : Separates mf budget registers) (hop : Node.ofOperand? budget op = some x)
    (hx : x < Interference.nodeCount mf) : ∃ r, nodeRegister? registers x = some r ∧ budget.contains r = true := by
  rcases Node.ofOperand?_cases hop with ⟨n, rfl, rfl⟩ | ⟨r, -, rfl, hin⟩
  · have hn : n < registers.length := by
      rw [h.length]
      exact Nat.lt_of_add_lt_add_left hx
    refine ⟨registers[n], ?_, h.inBudget _ (List.getElem_mem hn)⟩
    rw [nodeRegister?_virtual, List.getElem?_eq_getElem hn]
  · exact ⟨r, nodeRegister?_register registers r, hin⟩

/-- Every node that an instruction writes or reads gets a register of the budget. -/
theorem exists_register_of_mem (h : Separates mf budget registers) (hi : i ∈ mf.placedInsts)
    (hx : x ∈ i.defNodes budget ++ i.useNodes budget) :
    ∃ r, nodeRegister? registers x = some r ∧ budget.contains r = true := by
  have hknown := h.known i hi x hx
  rcases List.mem_append.1 hx with hx | hx
  · obtain ⟨op, -, hop⟩ := List.mem_filterMap.1 hx
    exact h.exists_register hop hknown
  · obtain ⟨op, -, hop⟩ := List.mem_filterMap.1 hx
    exact h.exists_register hop hknown

/-- Every live node gets a register of the budget. -/
theorem exists_register_of_live (h : Separates mf budget registers) (hcode : ∀ i ∈ code, i ∈ mf.placedInsts)
    (hx : mf.LiveFrom budget x code) : ∃ r, nodeRegister? registers x = some r ∧ budget.contains r = true := by
  obtain ⟨i, hi, hxi⟩ := Liveness.exists_use_of_liveFrom hx hcode
  exact h.exists_register_of_mem hi (List.mem_append_right _ hxi)

end Separates

/-! ## One instruction -/

namespace AssignedRun

variable {W : Type} {mf : MachineFunction} {budget : RegisterSet} {registers : List Register}

/-- What the states have in common before the instructions `code`: registers outside the budget, memory
and world, and the words of the live nodes. -/
structure Agrees (mf : MachineFunction) (budget : RegisterSet) (registers : List Register)
    (code : List Instr) (s s' : MachineState W) : Prop where
  memory : s'.memory = s.memory
  world : s'.world = s.world
  plain : ∀ r, budget.contains r = false → s'.reg r = s.reg r
  live : ∀ x, mf.LiveFrom budget x code → ∀ r, nodeRegister? registers x = some r →
    s'.reg r = s.node x

/-- Operands that an instruction reads hold the same word. -/
theorem Agrees.read {i : Instr} {rest : List Instr} {s s' : MachineState W}
    (h : Agrees mf budget registers (i :: rest) s s') (hsep : Separates mf budget registers)
    (hi : i ∈ mf.placedInsts) {op : Operand} (hop : op ∈ i.sources) :
    s'.read (MachineEdit.colored registers.toArray op) = s.read op := by
  cases hreg : op.isRegister with
  | false =>
    cases op with
    | immediate c => rfl
    | _ => cases hreg
  | true =>
    cases hnode : Node.ofOperand? budget op with
    | some x =>
      have hx : x ∈ i.useNodes budget :=
        List.mem_filterMap.2 ⟨op, List.mem_filter.2 ⟨hop, hreg⟩, hnode⟩
      obtain ⟨r, hr, -⟩ := hsep.exists_register_of_mem hi (List.mem_append_right _ hx)
      rw [MachineState.read_of_register? s' (MachineEdit.register?_colored hnode hr),
        h.live x (.use hx) r hr, MachineState.read_of_node s hnode]
    | none =>
      obtain ⟨r, hr, hout⟩ := Node.register_of_ofOperand?_none hnode hreg
      rw [MachineEdit.colored_of_register? hr, MachineState.read_of_register? s' hr, h.plain r hout,
        MachineState.read_of_register? s hr]

variable {rest : List Instr} {mf' : MachineFunction} {s s' : MachineState W}

/-- Callees and the system see the same registers. -/
theorem Agrees.plainRegs (h : Agrees mf budget registers code s s') (hbudget : budget.IsGeneral) :
    s'.plainRegs = s.plainRegs := by
  funext r
  unfold MachineState.plainRegs
  split
  · rfl
  · rename_i hgen
    refine h.plain r ?_
    by_contra hin
    exact hgen (hbudget r (by simpa using hin))

variable {e : Instr.Effect W} {env : MachineEnv W}

/-- Behind an instruction a live node was live before it, unless the instruction wrote it. -/
theorem liveFrom_of_next {w : W} (he : i.perform env values regs m w = .ok e) (hx : x ∉ i.defNodes budget)
    (hlive : mf.LiveFrom budget x (match e.target with
      | some b => mf.instsOf b
      | none => rest)) : mf.LiveFrom budget x (i :: rest) := by
  obtain ⟨hfall, hjump, -, -⟩ := Instr.perform_ok he
  cases ht : e.target with
  | none =>
    rw [ht] at hlive
    exact .pass (hfall ht) hx hlive
  | some b =>
    rw [ht] at hlive
    exact .jump (hjump b ht) hx hlive

/-- A copy whose source is live behind it gets two registers, or it is idle. -/
theorem isIdentity_of_copy {d : Nat} (hcopy : Interference.copyNodes? budget i = some (d, x))
    (hd : nodeRegister? registers d = some r) (hx : nodeRegister? registers x = some r) :
    MachineEdit.isIdentity (i.mapRegisters (MachineEdit.colored registers.toArray)) = true := by
  cases i with
  | move dst src =>
    simp only [Interference.copyNodes?, Instr.copy?, Option.bind_eq_bind, Option.pure_def] at hcopy
    split at hcopy
    · rename_i hsrc
      simp only [Option.bind_some, Option.bind_eq_some_iff, Option.some.injEq, Prod.mk.injEq] at hcopy
      obtain ⟨d', hd', x', hx', rfl, rfl⟩ := hcopy
      have hdst := MachineEdit.register?_colored hd' hd
      have hsrc' := MachineEdit.register?_colored hx' hx
      have hisreg : (Instr.mapOperand (MachineEdit.colored registers.toArray) src).isRegister = true := by
        rw [MachineEdit.mapOperand_colored, MachineEdit.isRegister_colored, hsrc]
      change MachineEdit.isIdentity (.move (Instr.mapOperand (MachineEdit.colored registers.toArray) dst)
        (Instr.mapOperand (MachineEdit.colored registers.toArray) src)) = true
      rw [MachineEdit.isIdentity, Instr.copy?, if_pos hisreg]
      dsimp only
      rw [MachineEdit.mapOperand_colored, MachineEdit.mapOperand_colored, hdst, hsrc']
      simp
    · cases hcopy
  | _ => cases hcopy

/-- The register of a live physical node is the node. -/
theorem eq_toNat_of_nodeRegister? {q : Register} (hq : nodeRegister? registers x = some q) (hx : x = r.toNat) :
    r = q := by
  rw [hx, nodeRegister?_register] at hq
  exact Option.some.inj hq

/-- The word in a node depends on its register or cell only. -/
theorem node_congr {t : MachineState W} (hreg : ∀ r : Register, x = r.toNat → t.reg r = s.reg r)
    (hvreg : t.vregs = s.vregs) : t.node x = s.node x := by
  unfold MachineState.node
  cases hx : Register.ofNat? x with
  | some r => exact hreg r (Register.ofNat?_eq_some_iff.1 hx)
  | none => rw [hvreg]

/-- A callee leaves nodes alone. -/
theorem Agrees.overwrite {new : Register → Word} (hbudget : budget.IsGeneral) (hsep : Separates mf budget registers)
    (hcode : ∀ i ∈ code, i ∈ mf.placedInsts) (h : Agrees mf budget registers code s s') :
    Agrees mf budget registers code (s.overwrite new) (s'.overwrite new) := by
  have hkeep : ∀ (t : MachineState W) (q : Register), budget.contains q = true →
      (t.overwrite new).reg q = t.reg q := by
    intro t q hq
    simp only [MachineState.overwrite, MachineState.reg, hbudget q hq, Bool.true_or, if_true]
  refine ⟨h.memory, h.world, fun r hr => ?_, fun x hx q hq => ?_⟩
  · have hplain := h.plain r hr
    simp only [MachineState.overwrite, MachineState.reg] at hplain ⊢
    split
    · rfl
    · rename_i hz
      rw [if_neg hz, if_neg hz] at hplain
      rw [hplain]
  · obtain ⟨q', hq', hin⟩ := hsep.exists_register_of_live hcode hx
    obtain rfl := Option.some.inj (hq.symm.trans hq')
    rw [hkeep s' q hin, h.live x hx q hq]
    refine (node_congr (s := s) (t := s.overwrite new) (fun r hr => ?_) rfl).symm
    obtain rfl := eq_toNat_of_nodeRegister? hq hr
    exact hkeep s r hin

/-- Writing the destination on both sides keeps the live nodes, if the instruction is not idle. -/
theorem Agrees.write {b : Nat} {pre rest : List Instr} {i : Instr} {op : Operand} {v : Word}
    {s s' : MachineState W} (hbudget : budget.IsGeneral) (hsep : Separates mf budget registers)
    (hb : mf.instsOf b = pre ++ i :: rest) (hdst : i.dst? = some op) (hop : op.isRegister = true)
    (hidle : MachineEdit.isIdentity (i.mapRegisters (MachineEdit.colored registers.toArray)) = false)
    (hmem : s'.memory = s.memory) (hworld : s'.world = s.world)
    (hplain : ∀ r, budget.contains r = false → s'.reg r = s.reg r)
    (hlive : ∀ x, mf.LiveFrom budget x rest → x ∉ i.defNodes budget → ∀ r,
      nodeRegister? registers x = some r → s'.reg r = s.node x) : Agrees mf budget registers rest (s.write op v)
      (s'.write (MachineEdit.colored registers.toArray op) v) := by
  have hi : i ∈ mf.placedInsts := MachineFunction.mem_placedInsts.2 ⟨b, by simp [hb]⟩
  have hrest : ∀ j ∈ rest, j ∈ mf.placedInsts := fun j hj =>
    MachineFunction.mem_placedInsts.2 ⟨b, by simp [hb, hj]⟩
  have hmem' : ∀ (t : MachineState W) (o : Operand), (t.write o v).memory = t.memory ∧
      (t.write o v).world = t.world := by
    intro t o
    cases o <;> exact ⟨rfl, rfl⟩
  cases hnode : Node.ofOperand? budget op with
  | some d =>
    have hd : d ∈ i.defNodes budget := List.mem_filterMap.2 ⟨op, Instr.mem_defs_of_dst hdst, hnode⟩
    obtain ⟨q, hq, hin⟩ := hsep.exists_register_of_mem hi (List.mem_append_left _ hd)
    have hwrite := MachineState.reg_write_of_register? s' (v := v)
      (MachineEdit.register?_colored hnode hq)
    refine ⟨?_, ?_, fun r hr => ?_, fun x hx r hr => ?_⟩
    · rw [(hmem' _ _).1, (hmem' _ _).1, hmem]
    · rw [(hmem' _ _).2, (hmem' _ _).2, hworld]
    · have hrq : r ≠ q := by
        rintro rfl
        exact Bool.noConfusion (hr.symm.trans hin)
      rw [hwrite, if_neg fun h => hrq h.1, hplain r hr]
      rcases Node.ofOperand?_cases hnode with ⟨n, rfl, -⟩ | ⟨r', hr', rfl, -⟩
      · rfl
      · obtain rfl := eq_toNat_of_nodeRegister? hq rfl
        rw [MachineState.reg_write_of_register? s hr', if_neg fun h => hrq h.1]
    · rw [MachineState.node_write s hbudget hnode, hwrite]
      by_cases hxd : x = d
      · subst hxd
        obtain rfl := Option.some.inj (hq.symm.trans hr)
        rw [if_pos ⟨rfl, MachineState.ne_zero_of_isGeneral (hbudget q hin)⟩, if_pos rfl]
      · have hnot : x ∉ i.defNodes budget := by
          intro hmem
          obtain ⟨op', hop', hx'⟩ := Instr.dst_of_mem_defNodes hbudget hmem
          rw [hdst] at hop'
          obtain rfl := Option.some.inj hop'
          exact hxd (Option.some.inj (hx'.symm.trans hnode))
        have hrq : r ≠ q := by
          rintro rfl
          refine hsep.apart b pre i rest hb d hd x hx hxd (fun c t hcopy => ?_) (hr.trans hq.symm)
          rintro rfl
          have hc : c = d := by
            have hdefs := (Liveness.mem_useNodes_of_copyNodes hcopy).1
            rw [hdefs, List.mem_singleton] at hd
            exact hd.symm
          rw [isIdentity_of_copy hcopy (hc ▸ hq) hr] at hidle
          cases hidle
        rw [if_neg fun h => hrq h.1, if_neg hxd]
        exact hlive x hx hnot r hr
  | none =>
    obtain ⟨q, hq, hout⟩ := Node.register_of_ofOperand?_none hnode hop
    rw [MachineEdit.colored_of_register? hq]
    refine ⟨?_, ?_, fun r hr => ?_, fun x hx r hr => ?_⟩
    · rw [(hmem' _ _).1, (hmem' _ _).1, hmem]
    · rw [(hmem' _ _).2, (hmem' _ _).2, hworld]
    · rw [MachineState.reg_write_of_register? s' hq, MachineState.reg_write_of_register? s hq, hplain r hr]
    · have hnot : x ∉ i.defNodes budget := by
        intro hmem
        obtain ⟨op', hop', hx'⟩ := Instr.dst_of_mem_defNodes hbudget hmem
        rw [hdst] at hop'
        obtain rfl := Option.some.inj hop'
        rw [hnode] at hx'
        cases hx'
      obtain ⟨r', hr', hin⟩ := hsep.exists_register_of_live hrest hx
      obtain rfl := Option.some.inj (hr.symm.trans hr')
      have hne : ∀ k : Register, budget.contains k = true → k ≠ q := by
        rintro k hk rfl
        exact Bool.noConfusion (hout.symm.trans hk)
      rw [MachineState.reg_write_of_register? s' hq, if_neg fun h => hne r hin h.1, hlive x hx hnot r hr]
      refine (node_congr (fun k hk => ?_) ?_).symm
      · obtain rfl := eq_toNat_of_nodeRegister? hr hk
        rw [MachineState.reg_write_of_register? s hq, if_neg fun h => hne k hin h.1]
      · cases op with
        | «virtual» n => cases hq
        | _ => rfl

/-- The next instructions after an effect. -/
def nextCode (mf : MachineFunction) (e : Instr.Effect W) (rest : List Instr) : List Instr :=
  match e.target with
  | some b => mf.instsOf b
  | none => rest

variable {pre : List Instr} {b : Nat}

section

variable (hbudget : budget.IsGeneral) (hsep : Separates mf budget registers) (hb : mf.instsOf b = pre ++ i :: rest)

include hbudget hsep hb

/-- An instruction that is not idle keeps the states in agreement. -/
theorem Agrees.after {rest' : List Instr} {w : W} (hdst : ∀ op, i.dst? = some op → op.isRegister = true)
    (hidle : MachineEdit.isIdentity (i.mapRegisters (MachineEdit.colored registers.toArray)) = false)
    (he : i.perform env values regs m w = .ok e) (h : Agrees mf budget registers (i :: rest) s s') :
    Agrees mf budget registers (nextCode mf e rest) (s.after mf i.dst? e rest)
      (s'.after mf' (i.dst?.map (MachineEdit.colored registers.toArray)) e rest') := by
  obtain ⟨-, -, hvalue, hover⟩ := Instr.perform_ok he
  have hplaced : ∀ j ∈ nextCode mf e rest, j ∈ mf.placedInsts := by
    intro j hj
    unfold nextCode at hj
    split at hj
    · rename_i t _
      exact MachineFunction.mem_placedInsts.2 ⟨t, hj⟩
    · exact MachineFunction.mem_placedInsts.2 ⟨b, by simp [hb, hj]⟩
  have hnext : ∀ x, mf.LiveFrom budget x (nextCode mf e rest) → x ∉ i.defNodes budget → ∀ r,
      nodeRegister? registers x = some r → s'.reg r = s.node x :=
    fun x hx hnot r hr => h.live x (liveFrom_of_next he hnot hx) r hr
  -- Without a destination no node is written.
  have hnone : i.dst? = none → Agrees mf budget registers (nextCode mf e rest) s s' := by
    intro hd
    refine ⟨h.memory, h.world, h.plain, fun x hx r hr => hnext x hx (fun hmem => ?_) r hr⟩
    obtain ⟨op, hop, -⟩ := Instr.dst_of_mem_defNodes hbudget hmem
    rw [hd] at hop
    cases hop
  have hsettle : ∃ t t' : MachineState W, s.settle i.dst? e = t ∧
      s'.settle (i.dst?.map (MachineEdit.colored registers.toArray)) e = t' ∧
      Agrees mf budget registers (nextCode mf e rest) t t' := by
    refine ⟨_, _, rfl, rfl, ?_⟩
    unfold MachineState.settle
    cases hd : i.dst? with
    | none =>
      cases e.overwritten with
      | some new => exact (hnone hd).overwrite hbudget hsep hplaced
      | none => exact hnone hd
    | some op =>
      have hno : e.overwritten = none := by
        cases ho : e.overwritten with
        | none => rfl
        | some new =>
          rw [hover (by rw [ho]; rfl)] at hd
          cases hd
      obtain ⟨v, hv⟩ := Option.isSome_iff_exists.1 (hvalue (by rw [hd]; rfl))
      have hrest : nextCode mf e rest = rest := by
        unfold nextCode
        split
        · rename_i t ht
          have htransfer := MachineFunction.isTransfer_of_target ((Instr.perform_ok he).2.1 t ht)
          have hmem := Instr.mem_defs_of_dst hd
          rw [MachineFunction.defs_of_isTransfer htransfer] at hmem
          cases hmem
        · rfl
      rw [hrest] at hnext ⊢
      rw [hno, hv]
      exact Agrees.write hbudget hsep hb hd (hdst op hd) hidle h.memory h.world h.plain hnext
  obtain ⟨t, t', ht, ht', hagree⟩ := hsettle
  unfold MachineState.after
  rw [ht, ht']
  exact ⟨rfl, rfl, hagree.plain, hagree.live⟩

/-- An idle copy does nothing that shows on the other side. -/
theorem Agrees.idle (hidle : MachineEdit.isIdentity (i.mapRegisters (MachineEdit.colored registers.toArray)) = true)
    (he : i.perform env (i.sources.map s.read) s.plainRegs s.memory s.world = .ok e)
    (h : Agrees mf budget registers (i :: rest) s s') : e.events = [] ∧
      (s.after mf i.dst? e rest).block = s.block ∧ (s.after mf i.dst? e rest).code = rest ∧
      Agrees mf budget registers rest (s.after mf i.dst? e rest) s' := by
  have hi : i ∈ mf.placedInsts := MachineFunction.mem_placedInsts.2 ⟨b, by simp [hb]⟩
  obtain ⟨dst, src, rfl⟩ : ∃ dst src, i = .move dst src := by
    cases i <;> first | exact ⟨_, _, rfl⟩ | cases hidle
  obtain ⟨r, hdst, hsrc⟩ : ∃ r, (MachineEdit.colored registers.toArray dst).register? = some r ∧
      (MachineEdit.colored registers.toArray src).register? = some r := by
    change MachineEdit.isIdentity (.move (Instr.mapOperand (MachineEdit.colored registers.toArray) dst)
      (Instr.mapOperand (MachineEdit.colored registers.toArray) src)) = true at hidle
    rw [MachineEdit.mapOperand_colored, MachineEdit.mapOperand_colored, MachineEdit.isIdentity,
      Instr.copy?] at hidle
    split at hidle
    · rename_i d t hcopy
      split at hcopy
      · cases hcopy
        rw [Bool.and_eq_true, beq_iff_eq, Option.isSome_iff_exists] at hidle
        obtain ⟨⟨r, hr⟩, heq⟩ := hidle
        exact ⟨r, hr, heq ▸ hr⟩
      · cases hcopy
    · cases hidle
  cases he
  refine ⟨rfl, rfl, rfl, ?_⟩
  have hread : s'.read (MachineEdit.colored registers.toArray src) = s.read src :=
    h.read hsep hi (by simp [Instr.sources])
  rw [MachineState.read_of_register? s' hsrc] at hread
  change Agrees mf budget registers rest { s.write dst (s.read src) with
    memory := s.memory, world := s.world, block := s.block, code := rest } s'
  rw [← hread]
  have hbefore : ∀ x, mf.LiveFrom budget x rest → x ∉ (Instr.move dst src).defNodes budget → ∀ q,
      nodeRegister? registers x = some q → s'.reg q = s.node x :=
    fun x hx hnot q hq => h.live x (.pass rfl hnot hx) q hq
  cases hnode : Node.ofOperand? budget dst with
  | some d =>
    have hd : d ∈ (Instr.move dst src).defNodes budget :=
      List.mem_filterMap.2 ⟨dst, by simp [Instr.defs], hnode⟩
    obtain ⟨q, hq, hin⟩ := hsep.exists_register_of_mem hi (List.mem_append_left _ hd)
    have hqr := MachineEdit.register?_colored hnode hq
    obtain rfl := Option.some.inj (hqr.symm.trans hdst)
    refine ⟨h.memory, h.world, fun k hk => ?_, fun x hx k hk => ?_⟩
    · rw [h.plain k hk]
      change s.reg k = (s.write dst _).reg k
      rcases Node.ofOperand?_cases hnode with ⟨n, rfl, -⟩ | ⟨r', hr', rfl, hin'⟩
      · rfl
      · rw [MachineState.reg_write_of_register? s hr', if_neg]
        rintro ⟨rfl, -⟩
        exact Bool.noConfusion (hk.symm.trans hin')
    · change s'.reg k = (s.write dst _).node x
      rw [MachineState.node_write s hbudget hnode]
      by_cases hxd : x = d
      · subst hxd
        obtain rfl := Option.some.inj (hq.symm.trans hk)
        rw [if_pos rfl]
      · rw [if_neg hxd]
        refine hbefore x hx (fun hmem => ?_) k hk
        obtain ⟨op, hop, hx'⟩ := Instr.dst_of_mem_defNodes hbudget hmem
        obtain rfl := Option.some.inj hop
        exact hxd (Option.some.inj (hx'.symm.trans hnode))
  | none =>
    have hdreg : dst.isRegister = true := by
      cases dst with
      | immediate c => cases hdst
      | _ => rfl
    obtain ⟨q, hq, hout⟩ := Node.register_of_ofOperand?_none hnode hdreg
    rw [MachineEdit.colored_of_register? hq, hq] at hdst
    obtain rfl := Option.some.inj hdst
    have hsame : ∀ k, (s.write dst (s'.reg q)).reg k = s.reg k := by
      intro k
      rw [MachineState.reg_write_of_register? s hq, h.plain q hout]
      split
      · rename_i hk
        rw [hk.1]
      · rfl
    refine ⟨h.memory, h.world, fun k hk => ?_, fun x hx k hk => ?_⟩
    · exact (h.plain k hk).trans (hsame k).symm
    · have hnot : x ∉ (Instr.move dst src).defNodes budget := by
        intro hmem
        obtain ⟨op, hop, hx'⟩ := Instr.dst_of_mem_defNodes hbudget hmem
        obtain rfl := Option.some.inj hop
        rw [hnode] at hx'
        cases hx'
      rw [hbefore x hx hnot k hk]
      refine (node_congr (s := s) (t := s.write dst (s'.reg q)) (fun r _ => hsame r) ?_).symm
      cases dst with
      | «virtual» n => cases hq
      | _ => rfl

end

/-! ## Whole runs -/

/-- Instructions with the registers that were assigned, without the idle copies. -/
def assignedCode (registers : List Register) (code : List Instr) : List Instr :=
  (code.map (Instr.mapRegisters (MachineEdit.colored registers.toArray))).filter
    fun i => !MachineEdit.isIdentity i

/-- The states of the two functions at the same place. -/
structure Holds (mf : MachineFunction) (budget : RegisterSet) (registers : List Register)
    (s s' : MachineState W) : Prop where
  place : ∃ b pre, mf.instsOf b = pre ++ s.code
  beforeExit : s.BeforeExit mf
  block : s'.block = s.block
  code : s'.code = assignedCode registers s.code
  agrees : Agrees mf budget registers s.code s s'

/-- What a step does before an instruction that is not idle with the registers that were assigned. -/
theorem Holds.step_of_busy (env : MachineEnv W) (mf' : MachineFunction) (hbudget : budget.IsGeneral)
    (hsep : Separates mf budget registers) (h : Holds mf budget registers s s') (hcode : s.code = i :: rest)
    (hidle : MachineEdit.isIdentity (i.mapRegisters (MachineEdit.colored registers.toArray)) = false) :
    mf'.step env s' =
      if i.dst?.any fun op => !op.isRegister then .done .fault
      else match i.perform env (i.sources.map s.read) s.plainRegs s.memory s.world with
        | .ok e => .next e.events (s'.after mf'
            (i.dst?.map (MachineEdit.colored registers.toArray)) e (assignedCode registers rest))
        | .error o => .done o := by
  obtain ⟨b, pre, hb⟩ := h.place
  rw [hcode] at hb
  have hi : i ∈ mf.placedInsts := MachineFunction.mem_placedInsts.2 ⟨b, by simp [hb]⟩
  have hagree := h.agrees
  rw [hcode] at hagree
  have hcode' : s'.code = i.mapRegisters (MachineEdit.colored registers.toArray) ::
      assignedCode registers rest := by
    rw [h.code, hcode, assignedCode, List.map_cons, List.filter_cons_of_pos (by simp [hidle])]
    rfl
  have hdst : (i.mapRegisters (MachineEdit.colored registers.toArray)).dst? =
      i.dst?.map (MachineEdit.colored registers.toArray) := by
    rw [Instr.dst_mapRegisters _ (fun _ => rfl)]
    exact congrArg (fun f => i.dst?.map f) (funext (MachineEdit.mapOperand_colored _))
  have hsources : (i.mapRegisters (MachineEdit.colored registers.toArray)).sources.map s'.read =
      i.sources.map s.read := by
    rw [Instr.sources_mapRegisters _ (fun _ => rfl), List.map_map]
    refine List.map_congr_left fun op hop => ?_
    rw [Function.comp_apply, MachineEdit.mapOperand_colored]
    exact hagree.read hsep hi hop
  rw [MachineFunction.step, hcode']
  dsimp only
  rw [hdst, hsources, Instr.perform_mapRegisters, hagree.plainRegs hbudget, hagree.memory, hagree.world]
  congr 1
  · cases i.dst? with
    | none => rfl
    | some op => simp [MachineEdit.isRegister_colored]

/-- The function with the registers that were assigned answers every step. -/
theorem simulation (hbudget : budget.IsGeneral) (hsep : Separates mf budget registers) (hexits : mf.HasExits)
    (hsize : mf'.blocks.size = mf.blocks.size)
    (hmf' : ∀ b, mf'.instsOf b = assignedCode registers (mf.instsOf b)) :
    Runs.Simulation (mf.step env) (mf'.step env) (Holds mf budget registers)
      fun s => s.code.length := by
  constructor
  · intro s s' events t h hs
    obtain ⟨b, pre, hb⟩ := h.place
    have hbefore := h.beforeExit.next hexits hs
    cases hcode : s.code with
    | nil =>
      rw [h.beforeExit.step_of_end hcode] at hs
      cases hs
    | cons i rest =>
      rw [MachineFunction.step] at hs
      rw [hcode] at hs hb
      dsimp only at hs
      split at hs
      · cases hs
      · rename_i hdst
        have hagree := h.agrees
        rw [hcode] at hagree
        cases he : i.perform env (i.sources.map s.read) s.plainRegs s.memory s.world with
        | error o =>
          rw [he] at hs
          cases hs
        | ok e =>
          rw [he] at hs
          cases hs
          cases hidle : MachineEdit.isIdentity
              (i.mapRegisters (MachineEdit.colored registers.toArray)) with
          | true =>
            obtain ⟨hevents, hblock, hnext, hagree'⟩ := hagree.idle hbudget hsep hb hidle he
            refine ⟨0, s', ?_, ⟨⟨b, pre ++ [i], ?_⟩, hbefore, ?_, ?_, ?_⟩, fun _ => ?_⟩
            · rw [hevents]
              exact .refl s'
            · rw [hnext, hb, List.append_assoc]
              rfl
            · rw [hblock, h.block]
            · rw [hnext, h.code, hcode, assignedCode, List.map_cons,
                List.filter_cons_of_neg (by simp [hidle])]
              rfl
            · rw [hnext]
              exact hagree'
            · rw [hnext]
              exact Nat.lt_succ_self _
          | false =>
            have hstep' := h.step_of_busy env mf' hbudget hsep hcode hidle
            rw [if_neg hdst, he] at hstep'
            refine ⟨1, _, .single hstep', ⟨?_, hbefore, congrArg e.target.getD h.block, ?_, ?_⟩,
              fun h0 => absurd h0 Nat.one_ne_zero⟩
            · rw [MachineState.code_after]
              cases e.target with
              | some t => exact ⟨t, [], rfl⟩
              | none => exact ⟨b, pre ++ [i], by rw [hb, List.append_assoc]; rfl⟩
            · rw [MachineState.code_after, MachineState.code_after]
              cases e.target with
              | some t => exact hmf' t
              | none => rfl
            · refine hagree.after hbudget hsep hb (fun op hop => ?_) hidle he
              rw [hop] at hdst
              simpa using hdst
  · intro s s' o h hs
    cases hcode : s.code with
    | nil =>
      rw [h.beforeExit.step_of_end hcode] at hs
      cases hs
      have hcode' : s'.code = [] := by
        rw [h.code, hcode]
        rfl
      have hlast := h.beforeExit.le_block hcode
      refine Runs.ends_of_done ?_
      rw [MachineFunction.step_of_end hcode', MachineFunction.fallThrough, if_neg (by rw [h.block]; omega)]
    | cons i rest =>
      rw [MachineFunction.step, hcode] at hs
      dsimp only at hs
      cases hidle : MachineEdit.isIdentity
          (i.mapRegisters (MachineEdit.colored registers.toArray)) with
      | true =>
        -- An idle copy does not end a run.
        obtain ⟨dst, src, rfl⟩ : ∃ dst src, i = .move dst src := by
          cases i <;> first | exact ⟨_, _, rfl⟩ | cases hidle
        have hdst : dst.isRegister = true := by
          change MachineEdit.isIdentity (.move
            (Instr.mapOperand (MachineEdit.colored registers.toArray) dst)
            (Instr.mapOperand (MachineEdit.colored registers.toArray) src)) = true at hidle
          rw [MachineEdit.mapOperand_colored, MachineEdit.isIdentity] at hidle
          cases dst with
          | immediate c =>
            split at hidle
            · rename_i d t hcopy
              rw [Instr.copy?] at hcopy
              split at hcopy
              · cases hcopy
                cases hidle
              · cases hcopy
            · cases hidle
          | _ => rfl
        rw [if_neg (by simp [Instr.dst?, hdst])] at hs
        cases hs
      | false =>
        apply Runs.ends_of_done
        rw [h.step_of_busy env mf' hbudget hsep hcode hidle]
        split at hs
        · rename_i hdst
          rw [if_pos hdst]
          cases hs
          rfl
        · rename_i hdst
          rw [if_neg hdst]
          cases he : i.perform env (i.sources.map s.read) s.plainRegs s.memory s.world with
          | error o' =>
            rw [he] at hs
            cases hs
            rfl
          | ok e =>
            rw [he] at hs
            cases hs

/-- The function with the registers that were assigned runs like the function itself. -/
theorem sameRuns_assigned (hbudget : budget.IsGeneral) (hsep : Separates mf budget registers)
    (hfirst : mf.WritesBeforeReads budget) (hexits : mf.HasExits) (hsize : mf'.blocks.size = mf.blocks.size)
    (hmf' : ∀ b, mf'.instsOf b = assignedCode registers (mf.instsOf b))
    (regs : Register → Word) (vregs vregs' : Nat → Word) (m : Memory) (w : W) :
    Runs.SameRuns (mf.step env) (mf.start regs vregs m w) (mf'.step env)
      (mf'.start regs vregs' m w) := by
  refine Runs.sameRuns_of_simulation (simulation hbudget hsep hexits hsize hmf')
    ⟨⟨0, [], rfl⟩, hexits 0, rfl, hmf' 0, rfl, rfl, fun _ _ => rfl, fun x hx r hr => ?_⟩
  have hplaced : ∀ i ∈ mf.instsOf 0, i ∈ mf.placedInsts := fun i hi =>
    MachineFunction.mem_placedInsts.2 ⟨0, hi⟩
  obtain ⟨i, hi, hxi⟩ := Liveness.exists_use_of_liveFrom hx hplaced
  obtain ⟨op, -, hop⟩ := List.mem_filterMap.1 hxi
  rcases Node.ofOperand?_cases hop with ⟨n, -, rfl⟩ | ⟨q, -, rfl, -⟩
  · exact absurd hx (hfirst n)
  · obtain rfl := eq_toNat_of_nodeRegister? hr rfl
    exact (MachineState.node_register (mf.start regs vregs m w) q).symm

end AssignedRun

end SsaCompiler
