import SsaCompiler.Machine.Function
import SsaCompiler.Proofs.Runs
import Mathlib.Logic.Function.Basic

/-!
# Running machine functions

The meaning of machine code before its frame is completed. A state has the 32 registers, one cell for
each virtual register, memory, the current block and its instructions that are still to be run. Behind the
last instruction of a block control falls through to the next block. What lies outside the function
(callees, the system, the addresses of labels) is an environment. A callee sees every register but the
general ones, and gives those and the stack pointer back as they were.

An instruction reads its source operands, acts on the values alone (`Instr.perform`), and writes its
destination. So renaming operands can change a run only through what the operands hold, which
`perform_mapRegisters` and `sources_mapRegisters` say.
-/

set_option autoImplicit false

namespace SsaCompiler

/-- Memory: the word at each address. -/
abbrev Memory := Word → Word

/-- The memory with one word changed. -/
def Memory.set (m : Memory) (a v : Word) : Memory := fun b => if b = a then v else m b

/-- Two memories agree on all words but some. -/
def Memory.AgreeOff (words : List Word) (m m' : Memory) : Prop := ∀ a, a ∉ words → m' a = m a

/-- What an observer sees of machine code. -/
inductive MachineEvent
  | load (address value : Word)
  | store (address value : Word)
  /-- A word that the caller passed is read, by its place. -/
  | incoming (place value : Word)
  /-- A call with the words in its argument registers and those below the stack pointer, the latter
  with their addresses. -/
  | call (callee : String) (args : List Word) (outgoing : List (Word × Word))
  /-- A system call with its service number and argument. -/
  | syscall (service argument : Word)
  deriving DecidableEq

namespace MachineEvent

/-- The addresses of the words that the function itself reads or writes. -/
def touched : MachineEvent → List Word
  | load a _ | store a _ => [a]
  | call _ _ outgoing => outgoing.map Prod.fst
  | incoming .. | syscall .. => []

/-- Whether an event is something other than a load or store of one of some words. -/
def isOutside (words : List Word) : MachineEvent → Bool
  | load a _ | store a _ => !words.contains a
  | _ => true

end MachineEvent

/-- How a run of machine code ends. -/
inductive MachineOutcome
  /-- The function returns, with this word in the result register. -/
  | returned (v0 : Word)
  /-- The callee or the system does not come back from this call. -/
  | halted (last : MachineEvent)
  /-- A division by zero, an unknown label, a number as destination, or no instruction to run. -/
  | fault
  deriving DecidableEq

/-- What surrounds a function. `W` is the state of the outside world. -/
structure MachineEnv (W : Type) where
  /-- The address of a label. -/
  address : String → Option Word
  /-- The words that the caller passed on the stack, by place. -/
  incoming : Word → Word
  /-- What a callee makes of the registers it sees, the number of outgoing words, memory and world:
  memory, the registers it may overwrite, and world. -/
  call : String → (Register → Word) → Nat → Memory → W → Option (Memory × (Register → Word) × W)
  /-- What the system makes of the registers it sees, memory and world: a result, memory and world. -/
  syscall : (Register → Word) → Memory → W → Option (Word × Memory × W)

namespace Instr

/-- The operand that an instruction writes as its result. -/
def dst? : Instr → Option Operand
  | binary _ dst _ _ | compare _ dst _ _ | move dst _ | loadAddr dst _ | load dst _ _ _ => some dst
  | syscall => some .v0
  | store .. | branch .. | jump _ | call .. | ret _ => none

/-- Whether control may pass to the next instruction. -/
def fallsThrough : Instr → Bool
  | jump _ | ret _ => false
  | _ => true

/-- What an instruction does, apart from reading its sources and writing its destination. -/
structure Effect (W : Type) where
  /-- The word for the destination. -/
  value : Option Word := none
  /-- The registers as a callee leaves them. -/
  overwritten : Option (Register → Word) := none
  memory : Memory
  world : W
  events : List MachineEvent := []
  /-- The block to go to; none for the next instruction. -/
  target : Option Nat := none

/-- The words below the stack pointer that belong to a call, with their addresses. -/
def outgoingWords (sp : Word) (count : Nat) (m : Memory) : List (Word × Word) :=
  (List.range count).map fun j =>
    let a := sp - Int32.ofNat (4 * count) + Int32.ofNat (4 * j)
    (a, m a)

/-- The effect of an instruction, given the values of its sources and the registers that are not
general. -/
def perform {W : Type} (env : MachineEnv W) (i : Instr) (values : List Word)
    (regs : Register → Word) (m : Memory) (w : W) : Except MachineOutcome (Effect W) :=
  match i, values with
  | binary op _ _ _, [l, r] =>
    match op.eval? l r with
    | some v => .ok { value := some v, memory := m, world := w }
    | none => .error .fault
  | compare cond _ _ _, [l, r] =>
    .ok { value := some (Word.ofBool (cond.holds l r)), memory := m, world := w }
  | move _ _, [v] => .ok { value := some v, memory := m, world := w }
  | loadAddr _ symbol, [] =>
    match env.address symbol with
    | some a => .ok { value := some a, memory := m, world := w }
    | none => .error .fault
  | load _ _ offset isIncoming, [base] =>
    let a := base + offset
    if isIncoming then
      .ok { value := some (env.incoming a), memory := m, world := w,
            events := [.incoming a (env.incoming a)] }
    else .ok { value := some (m a), memory := m, world := w, events := [.load a (m a)] }
  | store _ _ offset, [v, base] =>
    let a := base + offset
    .ok { memory := m.set a v, world := w, events := [.store a v] }
  | branch cond _ _ target, [l, r] =>
    .ok { memory := m, world := w, target := if cond.holds l r then some target else none }
  | jump target, [] => .ok { memory := m, world := w, target := some target }
  | call callee argRegs stackArgs, _ =>
    let event := MachineEvent.call callee ((Register.arguments.take argRegs).map regs)
      (outgoingWords (regs .sp) stackArgs m)
    match env.call callee regs stackArgs m w with
    | some (m', regs', w') =>
      .ok { overwritten := some regs', memory := m', world := w', events := [event] }
    | none => .error (.halted event)
  | ret _, _ => .error (.returned (regs .v0))
  | syscall, _ =>
    let event := MachineEvent.syscall (regs .v0) (regs .a0)
    match env.syscall regs m w with
    | some (v, m', w') => .ok { value := some v, memory := m', world := w', events := [event] }
    | none => .error (.halted event)
  | _, _ => .error .fault

end Instr

/-- A state of a running machine function. -/
structure MachineState (W : Type) where
  regs : Register → Word
  vregs : Nat → Word
  memory : Memory
  world : W
  /-- The current block. -/
  block : Nat
  /-- The instructions of the current block that are still to be run. -/
  code : List Instr

namespace MachineState

variable {W : Type}

/-- The word in a register; one of them is always zero. -/
def reg (s : MachineState W) (r : Register) : Word := if r = .zero then 0 else s.regs r

/-- The value of an operand. -/
def read (s : MachineState W) : Operand → Word
  | .fixed r | .allocated r => s.reg r
  | .virtual n => s.vregs n
  | .immediate c => c

/-- The registers that callees and the system see. -/
def plainRegs (s : MachineState W) : Register → Word :=
  fun r => if r.isGeneral then 0 else s.reg r

/-- The state with a word in an operand. -/
def write (s : MachineState W) (op : Operand) (v : Word) : MachineState W :=
  match op with
  | .fixed r | .allocated r => { s with regs := Function.update s.regs r v }
  | .virtual n => { s with vregs := Function.update s.vregs n v }
  | .immediate _ => s

/-- The state with the registers as a callee leaves them: it preserves the stack pointer and the general
registers. -/
def overwrite (s : MachineState W) (new : Register → Word) : MachineState W :=
  { s with regs := fun r => if r.isGeneral || r == .sp then s.regs r else new r }

/-- The registers and cells after an effect. -/
def settle (s : MachineState W) (dst : Option Operand) (e : Instr.Effect W) : MachineState W :=
  let s := match e.overwritten with
    | some new => s.overwrite new
    | none => s
  match dst, e.value with
  | some op, some v => s.write op v
  | _, _ => s

/-- The state after an effect, where `rest` are the next instructions. -/
def after (s : MachineState W) (mf : MachineFunction) (dst : Option Operand) (e : Instr.Effect W)
    (rest : List Instr) : MachineState W :=
  { s.settle dst e with
    memory := e.memory
    world := e.world
    block := e.target.getD s.block
    code := match e.target with
      | some b => mf.instsOf b
      | none => rest }

variable {s : MachineState W} {mf : MachineFunction} {dst : Option Operand} {e : Instr.Effect W} {rest : List Instr}

/-- An effect on registers and cells leaves the block. -/
theorem block_settle : (s.settle dst e).block = s.block := by
  have hwrite : ∀ (u : MachineState W) (op : Operand) (x : Word), (u.write op x).block = u.block := by
    intro u op x
    cases op <;> rfl
  unfold settle
  cases e.overwritten <;> dsimp only <;> split <;> first | exact hwrite _ _ _ | rfl

/-- Where control goes on after an effect. -/
theorem code_after : (s.after mf dst e rest).code = (e.target.map mf.instsOf).getD rest := by
  unfold after
  cases e.target <;> rfl

/-- Registers that callees preserve change only where they are written. -/
theorem regs_after {r : Register} (hr : (r.isGeneral || r == .sp) = true)
    (hdst : ∀ op, dst = some op → op.register? ≠ some r) : (s.after mf dst e rest).regs r = s.regs r := by
  have hwrite : ∀ (u : MachineState W) (op : Operand) (x : Word), op.register? ≠ some r →
      (u.write op x).regs r = u.regs r := by
    intro u op x hop
    cases op with
    | fixed q | allocated q =>
      refine Function.update_of_ne (fun heq => hop ?_) ..
      rw [heq]
      rfl
    | «virtual» n | immediate c => rfl
  change (s.settle dst e).regs r = s.regs r
  unfold settle
  extract_lets u
  have hu : u.regs r = s.regs r := by
    dsimp only [u]
    split
    · exact if_pos hr
    · rfl
  split
  · exact (hwrite _ _ _ (hdst _ rfl)).trans hu
  · exact hu

end MachineState

namespace MachineFunction

variable {W : Type}

/-- At the end of a block control falls through to the next block. Behind the last block there is nothing to
run. -/
def fallThrough (mf : MachineFunction) (s : MachineState W) :
    Progress (MachineState W) MachineEvent MachineOutcome :=
  if s.block + 1 < mf.blocks.size then
    .next [] { s with block := s.block + 1, code := mf.instsOf (s.block + 1) }
  else .done .fault

/-- Runs the next instruction, or goes on to the next block. -/
def step (mf : MachineFunction) (env : MachineEnv W) (s : MachineState W) :
    Progress (MachineState W) MachineEvent MachineOutcome :=
  match s.code with
  | [] => mf.fallThrough s
  | i :: rest =>
    if i.dst?.any fun op => !op.isRegister then .done .fault
    else
      match i.perform env (i.sources.map s.read) s.plainRegs s.memory s.world with
      | .ok e => .next e.events (s.after mf i.dst? e rest)
      | .error o => .done o

section Step

variable {mf : MachineFunction} {env : MachineEnv W} {s u : MachineState W} {i : Instr} {rest : List Instr}
  {events : List MachineEvent}

/-- Falling through shows nothing and leads to the start of the next block. -/
theorem fallThrough_eq_next (h : mf.fallThrough s = .next events u) : s.block + 1 < mf.blocks.size ∧ events = [] ∧
    u = { s with block := s.block + 1, code := mf.instsOf (s.block + 1) } := by
  unfold fallThrough at h
  split at h
  · rename_i hnext
    cases h
    exact ⟨hnext, rfl, rfl⟩
  · cases h

/-- The end of a block. -/
theorem step_of_end (hcode : s.code = []) : mf.step env s = mf.fallThrough s := by
  rw [step, hcode]

/-- An instruction with a number as destination. -/
theorem step_of_bad (hcode : s.code = i :: rest) (hd : (i.dst?.any fun op => !op.isRegister) = true) :
    mf.step env s = .done .fault := by
  rw [step, hcode]
  dsimp only
  rw [if_pos hd]

theorem step_of_ok (hcode : s.code = i :: rest) (hd : (i.dst?.any fun op => !op.isRegister) = false)
    {e : Instr.Effect W} (he : i.perform env (i.sources.map s.read) s.plainRegs s.memory s.world = .ok e) :
    mf.step env s = .next e.events (s.after mf i.dst? e rest) := by
  rw [step, hcode]
  dsimp only
  rw [if_neg (by simp [hd]), he]

theorem step_of_error (hcode : s.code = i :: rest) (hd : (i.dst?.any fun op => !op.isRegister) = false)
    {o : MachineOutcome} (he : i.perform env (i.sources.map s.read) s.plainRegs s.memory s.world = .error o) :
    mf.step env s = .done o := by
  rw [step, hcode]
  dsimp only
  rw [if_neg (by simp [hd]), he]

end Step

/-- The state in which a run begins. -/
def start (mf : MachineFunction) (regs : Register → Word) (vregs : Nat → Word) (m : Memory) (w : W) :
    MachineState W :=
  { regs, vregs, memory := m, world := w, block := 0, code := mf.instsOf 0 }

end MachineFunction

namespace Instr

variable {W : Type}

/-- What `mapRegisters` does to one operand. -/
def mapOperand (f : Operand → Operand) (op : Operand) : Operand := if op.isRegister then f op else op

/-- Renaming operands leaves the effect of an instruction on given values alone. -/
theorem perform_mapRegisters (env : MachineEnv W) (f : Operand → Operand) (i : Instr)
    (values : List Word) (regs : Register → Word) (m : Memory) (w : W) :
    (i.mapRegisters f).perform env values regs m w = i.perform env values regs m w := by
  -- No instruction has more than two sources.
  rcases values with _ | ⟨a, _ | ⟨b, _ | ⟨c, l⟩⟩⟩ <;> cases i <;> rfl

section

variable (f : Operand → Operand)

include f

section

variable (hf : ∀ r, f (.fixed r) = .fixed r) (i : Instr)

include hf i

/-- Renaming operands renames the sources, as long as prescribed registers keep their place. -/
theorem sources_mapRegisters : (i.mapRegisters f).sources = i.sources.map (mapOperand f) := by
  have hfixed : ∀ r, mapOperand f (.fixed r) = .fixed r := fun r => by simp [mapOperand, Operand.isRegister, hf]
  cases i with
  | call callee argRegs stackArgs =>
    simp only [mapRegisters, sources, List.map_map]
    exact List.map_congr_left fun r _ => (hfixed r).symm
  | ret usesV0 => cases usesV0 <;> simp [mapRegisters, sources, Operand.ra, Operand.v0, hfixed]
  | syscall => simp [mapRegisters, sources, Operand.v0, hfixed]
  | _ => rfl

/-- Renaming operands renames the definitions, as long as prescribed registers keep their place. -/
theorem defs_mapRegisters : (i.mapRegisters f).defs = i.defs.map (mapOperand f) := by
  have hfixed : ∀ r, mapOperand f (.fixed r) = .fixed r := fun r => by simp [mapOperand, Operand.isRegister, hf]
  cases i with
  | call callee argRegs stackArgs =>
    simp only [mapRegisters, defs, List.map_map]
    exact List.map_congr_left fun r _ => (hfixed r).symm
  | syscall => simp [mapRegisters, defs, Operand.v0, hfixed]
  | _ => rfl

/-- Renaming operands renames the destination. -/
theorem dst_mapRegisters : (i.mapRegisters f).dst? = i.dst?.map (mapOperand f) := by
  cases i with
  | syscall => simp [mapRegisters, dst?, Operand.v0, mapOperand, Operand.isRegister, hf]
  | _ => rfl

end

/-- Renaming operands keeps the target of a transfer. -/
theorem target_mapRegisters (i : Instr) : (i.mapRegisters f).target? = i.target? := by cases i <;> rfl

/-- Renaming operands keeps transfers and other instructions apart. -/
theorem isTransfer_mapRegisters (i : Instr) : (i.mapRegisters f).isTransfer = i.isTransfer := by cases i <;> rfl

/-- Renaming operands keeps whether control may pass to the next instruction. -/
theorem fallsThrough_mapRegisters (i : Instr) : (i.mapRegisters f).fallsThrough = i.fallsThrough := by cases i <;> rfl

end

/-- The destination of an instruction is one of its definitions. -/
theorem mem_defs_of_dst {i : Instr} {op : Operand} (h : i.dst? = some op) : op ∈ i.defs := by
  cases i <;> simp_all [dst?, defs]

end Instr

end SsaCompiler
