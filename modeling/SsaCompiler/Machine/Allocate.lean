import SsaCompiler.Machine.Coloring
import SsaCompiler.Machine.Spill

/-!
# Allocating registers

Registers are allocated in rounds: liveness, interference, colouring. A round that leaves nodes
without a colour spills them and the next round starts afresh. Every such round puts at least one
register into the frame that was there at the beginning, which bounds the number of rounds.
-/

set_option autoImplicit false

namespace SsaCompiler

/-- The result of an allocation. -/
structure Allocation where
  /-- The number of rounds. -/
  rounds : Nat
  /-- The number of registers that were spilled. -/
  spilled : Nat
  /-- The number of copies that disappeared because both sides got the same register. -/
  coalescedMoves : Nat
  /-- The registers of the virtual registers in order. -/
  assignment : List Register
  /-- The pairs of nodes that interfere in the last round. -/
  interference : List (Nat × Nat)
  deriving Repr, Inhabited

/-- A change of a machine function that gives a result or fails. -/
abbrev MachineEdit := ExceptT Failure (StateM MachineFunction)

namespace MachineEdit

/-- Asks a question about the function. -/
def ask {α : Type} (question : MachineFunction → Outcome α) : MachineEdit α := do
  match question (← get) with
  | .ok a => pure a
  | .error e => throw e

/-- The register that an operand gets. -/
def colored (assignment : Array Register) : Operand → Operand
  | .virtual n =>
    match assignment[n]? with
    | some r => .allocated r
    | none => .virtual n
  | op => op

/-- Whether an instruction copies a register to itself. -/
def isIdentity (i : Instr) : Bool :=
  match i.copy? with
  | some (dst, src) => dst.register?.isSome && dst.register? == src.register?
  | none => false

/-- Puts registers in the place of virtual registers and drops the copies that became idle; counts
them. -/
def applyAssignment (assignment : Array Register) : MachineEdit Nat := do
  modify fun mf => { mf with blocks := mf.blocks.map fun b =>
    { b with insts := b.insts.map (Instr.mapRegisters (colored assignment)) } }
  let mf ← get
  match (mf.placedInsts.flatMap Instr.mentions).find? fun op => op.virtual?.isSome with
  | some op => throw (.error (.invariant mf.name (.unassigned op.text)))
  | none =>
    modify fun mf => { mf with blocks := mf.blocks.map fun b =>
      { b with insts := b.insts.filter fun i => !isIdentity i } }
    return mf.placedInsts.countP isIdentity

/-- One round: the registers of the virtual registers and the interference graph, or the virtual
registers to be spilled. -/
def colorRound (budget : RegisterSet) :
    MachineEdit (Sum (List Register × Interference) (List Nat)) := do
  let liveness ← ask fun mf => Liveness.ofFunction mf budget
  let graph ← ask fun mf => Interference.ofFunction mf budget liveness
  let mf ← get
  let c := (Coloring.start mf budget graph).run
  let (spilled, c) ← ask fun mf => Coloring.assignColors mf.name c.stack .empty c
  if spilled.isEmpty then
    let registers ← ask fun mf => c.assignment mf.name
    return .inl (registers, c.graph)
  return .inr (spilled.toList.map (· - Node.firstVirtual))

/-- Rounds until no node is left without a colour, at most `limit` of them. -/
def allocateWithin (budget : RegisterSet) (cap : Nat) :
    (limit round spilled : Nat) → MachineEdit Allocation
  | 0, _, _ => do throw (.error (.nonConvergence (← get).name .allocation cap))
  | limit + 1, round, spilled => do
    match ← colorRound budget with
    | .inl (registers, graph) =>
      let coalescedMoves ← applyAssignment registers.toArray
      return { rounds := round, spilled, coalescedMoves, assignment := registers,
               interference := graph.edges }
    | .inr vregs =>
      vregs.forM fun v => do
        let mf ← ask (·.spill v)
        set mf
      allocateWithin budget cap limit (round + 1) (spilled + vregs.length)

/-- Allocates registers of a budget to all virtual registers. Without a cap on the rounds, there may be
two more than virtual registers that are no spill temporaries. -/
def allocate (budget : RegisterSet) (maxRounds : Option Nat) : MachineEdit Allocation := do
  let mf ← get
  if budget.isEmpty then throw (.error (.registerAllocation mf.name .emptyBudget))
  let plain := (List.range mf.vregCount).countP fun v => !mf.spillTemps.contains v
  let cap := maxRounds.getD (plain + 2)
  allocateWithin budget cap cap 1 0

end MachineEdit

end SsaCompiler
