import SsaCompiler.Machine.Liveness

/-!
# Interference

Two nodes interfere when one is written while the other is live; they must not share a register. A
copy between registers is the exception that makes it worthwhile to look for sharing: its source
does not keep its target apart, and both are candidates for the same register.
-/

set_option autoImplicit false

namespace SsaCompiler

/-- The interference graph of a machine function. -/
structure Interference where
  /-- By node, the nodes that it interferes with. -/
  neighbours : Array NatSet
  /-- By node, how often it is mentioned, weighted by loop depth. -/
  loopWeight : Array Nat
  /-- The copies between nodes, target and source. -/
  moves : Array (Nat × Nat) := #[]
  deriving DecidableEq, Repr, Inhabited

namespace Interference

/-- The graph of `nodes` nodes without edges. -/
def blank (nodes : Nat) : Interference :=
  { neighbours := Array.replicate nodes .empty, loopWeight := Array.replicate nodes 0 }

/-- Whether two nodes interfere. -/
def adjacent (g : Interference) (u v : Nat) : Bool := (g.neighbours.getD u .empty).contains v

/-- The graph with an edge between two different nodes. -/
def connect (g : Interference) (u v : Nat) : Interference :=
  if u = v then g
  else
    let neighbours := (g.neighbours.modify u (·.insert v)).modify v (·.insert u)
    { g with neighbours }

/-- The graph with an edge from each of some nodes to the members of a set. -/
def connectAll (g : Interference) (nodes : List Nat) (live : NatSet) : Interference :=
  nodes.foldl (fun g d => live.toList.foldl (fun g l => g.connect l d) g) g

/-- The graph with more weight on some nodes. -/
def weigh (g : Interference) (nodes : List Nat) (weight : Nat) : Interference :=
  { g with loopWeight := nodes.foldl (fun w n => w.modify n (· + weight)) g.loopWeight }

/-- The nodes of a copy between nodes. -/
def copyNodes? (budget : RegisterSet) (i : Instr) : Option (Nat × Nat) := do
  let (dst, src) ← i.copy?
  return (← Node.ofOperand? budget dst, ← Node.ofOperand? budget src)

/-- Takes one instruction into the graph, given the nodes live behind it; gives the nodes live before
it. -/
def scanInst (budget : RegisterSet) (depth : Nat) (i : Instr) (state : Interference × NatSet) :
    Interference × NatSet :=
  let (g, live) := state
  let (g, live) := match copyNodes? budget i with
    | some (d, s) => ({ g with moves := g.moves.push (d, s) }, live.erase s)
    | none => (g, live)
  let defs := i.defNodes budget
  let uses := i.useNodes budget
  let live := defs.foldl NatSet.insert live
  let g := ((g.connectAll defs live).weigh defs depth).weigh uses depth
  (g, uses.foldl NatSet.insert (defs.foldl NatSet.erase live))

/-- Weights are 32-bit words: a depth counts modulo this limit, and no sum of depths may reach it. -/
def weightLimit : Nat := 0x100000000

/-- Takes a block into the graph, from its last instruction to its first. -/
def scanBlock (budget : RegisterSet) (l : Liveness) (mf : MachineFunction) (g : Interference)
    (b : Nat) : Interference :=
  ((mf.instsOf b).foldr (scanInst budget ((mf.block b).loopDepth % weightLimit))
    (g, l.liveOut.getD b .empty)).1

/-- The number of nodes of a machine function. -/
def nodeCount (mf : MachineFunction) : Nat := Node.firstVirtual + mf.vregCount

/-- The interference graph of a machine function; all its virtual registers must be known, and no weight
may outgrow a word. -/
def ofFunction (mf : MachineFunction) (budget : RegisterSet) (l : Liveness) :
    Outcome Interference :=
  let nodes := nodeCount mf
  if mf.placedInsts.all fun i =>
      (i.defNodes budget ++ i.useNodes budget).all fun n => decide (n < nodes) then
    let g := mf.blockIds.reverse.foldl (scanBlock budget l mf) (blank nodes)
    if g.loopWeight.all (· < weightLimit) then .ok g else .crash
  else .crash

/-- The edges of the graph, the smaller node first, in ascending order. -/
def edges (g : Interference) : List (Nat × Nat) :=
  (List.range g.neighbours.size).flatMap fun u =>
    ((g.neighbours.getD u .empty).toList.filter fun v => decide (u < v)).map fun v => (u, v)

end Interference

end SsaCompiler
