import SsaCompiler.Graph.ReversePostorder
import SsaCompiler.Machine.Function
import SsaCompiler.Machine.RegisterSet

/-!
# Liveness

Liveness is computed over *nodes*: the registers of the budget, by their numbers, and the virtual
registers behind them. A register outside the budget never holds a value that is allocated, so it
is no node. A node is live at a place when it may be read later without being written before.
-/

set_option autoImplicit false

namespace SsaCompiler

namespace Node

/-- The nodes below this number are physical registers. -/
def firstVirtual : Nat := 32

/-- The node of an operand, if it takes part in allocation. -/
def ofOperand? (budget : RegisterSet) : Operand → Option Nat
  | .virtual n => some (firstVirtual + n)
  | .fixed r | .allocated r => if budget.contains r then some r.toNat else none
  | .immediate _ => none

/-- Whether a node is a physical register. -/
def isPhysical (n : Nat) : Bool := n < firstVirtual

/-- The printed name of a node. -/
def name (n : Nat) : String :=
  match Register.ofNat? n with
  | some r => r.text
  | none => s!"%v{n - firstVirtual}"

end Node

namespace Instr

/-- The nodes that an instruction writes. -/
def defNodes (budget : RegisterSet) (i : Instr) : List Nat :=
  i.defs.filterMap (Node.ofOperand? budget)

/-- The nodes that an instruction reads. -/
def useNodes (budget : RegisterSet) (i : Instr) : List Nat :=
  i.uses.filterMap (Node.ofOperand? budget)

end Instr

/-- What a block does to nodes. -/
structure BlockEffect where
  /-- The nodes that are read before the block writes them. -/
  uses : NatSet := .empty
  /-- The nodes that the block writes. -/
  defs : NatSet := .empty
  deriving Repr, DecidableEq, Inhabited

namespace BlockEffect

/-- The effect with one more instruction at the end. -/
def extend (budget : RegisterSet) (e : BlockEffect) (i : Instr) : BlockEffect :=
  { uses := (i.useNodes budget).foldl (fun s n => if e.defs.contains n then s else s.insert n) e.uses
    defs := (i.defNodes budget).foldl NatSet.insert e.defs }

/-- The effect of instructions in order. -/
def ofInsts (budget : RegisterSet) (insts : List Instr) : BlockEffect :=
  insts.foldl (extend budget) {}

end BlockEffect

/-- The live nodes at the start and the end of every block. -/
structure Liveness where
  effects : Array BlockEffect
  liveIn : Array NatSet
  liveOut : Array NatSet
  /-- The number of rounds until the sets settled. -/
  rounds : Nat
  deriving Repr

namespace Liveness

/-- The sets during the computation. -/
structure Sets where
  liveIn : Array NatSet
  liveOut : Array NatSet
  changed : Bool

/-- Recomputes the sets of one block from those of its successors. -/
def updateBlock (mf : MachineFunction) (effects : Array BlockEffect) (s : Sets) (b : Nat) : Sets :=
  let out := (mf.successors b).foldl (fun out succ => out.union (s.liveIn.getD succ .empty))
    NatSet.empty
  let effect := effects.getD b {}
  let inn := effect.uses.union (out.diff effect.defs)
  if out = s.liveOut.getD b .empty && inn = s.liveIn.getD b .empty then s
  else
    { liveIn := s.liveIn.setIfInBounds b inn
      liveOut := s.liveOut.setIfInBounds b out
      changed := true }

/-- Repeats rounds over the blocks until one changes nothing, for at most `limit` rounds. -/
def settle (mf : MachineFunction) (effects : Array BlockEffect) (order : List Nat) :
    (limit done : Nat) → Sets → Option (Sets × Nat)
  | 0, _, _ => none
  | limit + 1, done, s =>
    let next := order.foldl (updateBlock mf effects) { s with changed := false }
    if next.changed then settle mf effects order limit (done + 1) next else some (next, done + 1)

/-- The liveness of a machine function. Reachable blocks are worked in postorder, which suits a
backward problem, and the others behind them. -/
def ofFunction (mf : MachineFunction) (budget : RegisterSet) : Outcome Liveness := do
  let n := mf.blocks.size
  let effects := mf.blocks.map fun b => BlockEffect.ofInsts budget b.insts
  let r ← ReversePostorder.ofCfg mf.cfg
  let order := r.order.reverse ++ mf.blockIds.filter fun b => !r.isReachable b
  let start : Sets :=
    { liveIn := effects.map (·.uses), liveOut := Array.replicate n .empty, changed := false }
  match settle mf effects order (n + 3) 0 start with
  | none => Outcome.report (.nonConvergence mf.name .liveness (n + 3))
  | some (s, rounds) => return { effects, liveIn := s.liveIn, liveOut := s.liveOut, rounds }

/-- Node names with spaces between them. -/
def names (s : NatSet) : String := " ".intercalate (s.toList.map Node.name)

/-- The listing of the live sets. -/
def listing (l : Liveness) (mf : MachineFunction) : String :=
  let lines := mf.blockIds.map fun b =>
    s!"{(mf.block b).label}:\n  livein: {names (l.liveIn.getD b .empty)}\n"
      ++ s!"  liveout: {names (l.liveOut.getD b .empty)}\n"
  s!"; liveness of {mf.label} ({l.rounds} rounds)\n" ++ String.join lines

/-- The listing of what the blocks read and write, before the listing of the live sets. -/
def trace (l : Liveness) (mf : MachineFunction) : String :=
  let lines := mf.blockIds.map fun b =>
    let effect := l.effects.getD b {}
    s!"  {(mf.block b).label}:\n    use: {names effect.uses}\n    def: {names effect.defs}\n"
  s!"Tracing {mf.label} ({mf.blocks.size} blocks)\n" ++ String.join lines ++ l.listing mf

end Liveness

end SsaCompiler
