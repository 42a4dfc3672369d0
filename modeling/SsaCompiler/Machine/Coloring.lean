import SsaCompiler.Machine.Interference

/-!
# Colouring with coalescing

The interference graph is taken apart node by node onto a stack and coloured on the way back. Nodes
with fewer neighbours than there are colours are taken first; then copies are merged where that
cannot make the graph harder to colour; then a copy is given up; and at last a node is taken in the
hope that a colour will be left for it. In each of these the lowest candidate comes first, except
that a hopeful node is chosen by how little it is used in loops for the edges it removes.

Physical registers are never taken from the graph and never merged into another node.
-/

set_option autoImplicit false

namespace SsaCompiler

/-- The state of taking a graph apart. -/
structure Coloring where
  graph : Interference
  budget : RegisterSet
  /-- The number of registers in the budget. -/
  colorCount : Nat
  /-- By node, the number of its neighbours that are still in the graph. -/
  degree : Array Nat
  /-- By node, the node it was merged into. -/
  mergedInto : Array Nat
  /-- The nodes that were merged into another one. -/
  merged : NatSet := .empty
  /-- The nodes on the stack. -/
  stacked : NatSet := .empty
  /-- The nodes that are spill temporaries. -/
  temps : NatSet
  /-- By node, the copies that mention it. -/
  moveList : Array NatSet
  /-- The copies that are to be tried. -/
  pendingMoves : NatSet
  /-- The copies that may be tried again when a degree falls. -/
  activeMoves : NatSet := .empty
  /-- Nodes of low degree without copies. -/
  simplifyList : NatSet := .empty
  /-- Nodes of low degree with copies. -/
  freezeList : NatSet := .empty
  /-- Nodes of high degree. -/
  spillList : NatSet := .empty
  /-- The nodes taken so far, latest first. -/
  stack : List Nat := []
  colors : Array (Option Register)
  deriving Inhabited

namespace Coloring

/-- The degree of a node; that of a physical register has no bound. -/
def degreeOf (c : Coloring) (n : Nat) : Nat := c.degree.getD n 0

/-- Whether a node has at least as many neighbours as there are colours. -/
def isSignificant (c : Coloring) (n : Nat) : Bool := c.colorCount ≤ c.degreeOf n

/-- The neighbours of a node that are still in the graph. -/
def adjacent (c : Coloring) (n : Nat) : NatSet :=
  ((c.graph.neighbours.getD n .empty).diff c.stacked).diff c.merged

/-- The copies of a node that may still be merged. -/
def nodeMoves (c : Coloring) (n : Nat) : NatSet :=
  (c.moveList.getD n .empty).inter (c.pendingMoves.union c.activeMoves)

/-- Whether a node has copies that may still be merged. -/
def moveRelated (c : Coloring) (n : Nat) : Bool := !(c.nodeMoves n).isEmpty

/-- The node that stands for a node, found in at most `limit` steps. -/
def aliasWithin (c : Coloring) : (limit n : Nat) → Nat
  | 0, n => n
  | limit + 1, n => if c.merged.contains n then c.aliasWithin limit (c.mergedInto.getD n n) else n

/-- The node that stands for a node. -/
def aliasOf (c : Coloring) (n : Nat) : Nat := c.aliasWithin c.mergedInto.size n

/-- Puts a node on the list that its degree and copies ask for. -/
def enlist (c : Coloring) (n : Nat) : Coloring :=
  if c.isSignificant n then { c with spillList := c.spillList.insert n }
  else if c.moveRelated n then { c with freezeList := c.freezeList.insert n }
  else { c with simplifyList := c.simplifyList.insert n }

/-- A degree that no number of colours reaches. -/
def unbounded : Nat := 1 <<< 30

/-- The state before anything is taken from a graph. -/
def start (mf : MachineFunction) (budget : RegisterSet) (graph : Interference) : Coloring :=
  let nodes := graph.neighbours.size
  let moves := graph.moves.toList.zipIdx
  let moveList := moves.foldl
    (fun list ((d, s), m) => (list.modify d (·.insert m)).modify s (·.insert m))
    (Array.replicate nodes NatSet.empty)
  let blank : Coloring :=
    { graph, budget
      colorCount := budget.size
      degree := Array.ofFn fun n : Fin nodes =>
        if Node.isPhysical n.val then unbounded else (graph.neighbours.getD n.val .empty).size
      mergedInto := Array.range nodes
      temps := ⟨mf.spillTemps.mask <<< Node.firstVirtual⟩
      moveList
      pendingMoves := .below moves.length
      colors := Array.replicate nodes none }
  (List.range' Node.firstVirtual (nodes - Node.firstVirtual)).foldl enlist blank

/-- Lets the waiting copies of some nodes be tried again. -/
def enableMoves (c : Coloring) (nodes : List Nat) : Coloring :=
  let moves := nodes.foldl (fun s n => s.union (c.moveList.getD n .empty)) NatSet.empty
  let enabled := moves.inter c.activeMoves
  { c with
    activeMoves := c.activeMoves.diff enabled
    pendingMoves := c.pendingMoves.union enabled }

/-- Takes one off the degree of a node. When the degree falls below the number of colours, the copies
around the node may be tried again and the node changes its list. -/
def lowerDegree (c : Coloring) (n : Nat) : Coloring :=
  if Node.isPhysical n then c
  else
    let d := c.degreeOf n
    let c := { c with degree := c.degree.setIfInBounds n (d - 1) }
    if d = c.colorCount then
      let c := c.enableMoves ((c.adjacent n).toList ++ [n])
      let c := { c with spillList := c.spillList.erase n }
      if c.moveRelated n then { c with freezeList := c.freezeList.insert n }
      else { c with simplifyList := c.simplifyList.insert n }
    else c

/-- Takes a node onto the stack. -/
def simplify (c : Coloring) (n : Nat) : Coloring :=
  let c := { c with
    simplifyList := c.simplifyList.erase n
    stack := n :: c.stack
    stacked := c.stacked.insert n }
  (c.adjacent n).toList.foldl lowerDegree c

/-- Makes a node that lost its last copy ready to be taken. -/
def release (c : Coloring) (n : Nat) : Coloring :=
  if !Node.isPhysical n && !c.moveRelated n && !c.isSignificant n then
    { c with freezeList := c.freezeList.erase n, simplifyList := c.simplifyList.insert n }
  else c

/-- Adds an edge and counts it in the degrees. -/
def connect (c : Coloring) (u v : Nat) : Coloring :=
  if u = v || c.graph.adjacent u v then c
  else
    let raise (degree : Array Nat) (n : Nat) : Array Nat :=
      if Node.isPhysical n then degree else degree.modify n (· + 1)
    { c with graph := c.graph.connect u v, degree := raise (raise c.degree u) v }

/-- Whether merging a node into the physical register `r` leaves its neighbour `t` no worse off. -/
def harmless (c : Coloring) (r t : Nat) : Bool :=
  !c.isSignificant t || Node.isPhysical t || c.graph.adjacent t r

/-- Whether two nodes may be merged without making the graph harder to colour: into a physical register
when no neighbour suffers, into another node when the merged node has few neighbours of high
degree. -/
def mayMerge (c : Coloring) (u v : Nat) : Bool :=
  if Node.isPhysical u then (c.adjacent v).toList.all (c.harmless u)
  else
    let around := (c.adjacent u).union (c.adjacent v)
    decide ((around.toList.filter c.isSignificant).length < c.colorCount)

/-- Merges node `v` into node `u`. -/
def merge (c : Coloring) (u v : Nat) : Coloring :=
  let c := if c.freezeList.contains v then { c with freezeList := c.freezeList.erase v }
    else { c with spillList := c.spillList.erase v }
  let c := { c with
    merged := c.merged.insert v
    mergedInto := c.mergedInto.setIfInBounds v u
    moveList := c.moveList.modify u (·.union (c.moveList.getD v .empty)) }
  let c := c.enableMoves [v]
  let c := (c.adjacent v).toList.foldl (fun c t => (c.connect t u).lowerDegree t) c
  if c.isSignificant u && c.freezeList.contains u then
    { c with freezeList := c.freezeList.erase u, spillList := c.spillList.insert u }
  else c

/-- Tries to merge the nodes of a copy. -/
def coalesce (c : Coloring) (m : Nat) : Coloring :=
  let c := { c with pendingMoves := c.pendingMoves.erase m }
  let (dst, src) := c.graph.moves.getD m (0, 0)
  let x := c.aliasOf dst
  let y := c.aliasOf src
  let (u, v) := if Node.isPhysical y then (y, x) else (x, y)
  if u = v then c.release u
  else if Node.isPhysical v || c.graph.adjacent u v then (c.release u).release v
  else if c.mayMerge u v then (c.merge u v).release u
  else { c with activeMoves := c.activeMoves.insert m }

/-- Gives up the copies of a node; the nodes at their other ends may become ready to be taken. -/
def freezeMoves (c : Coloring) (u : Nat) : Coloring :=
  (c.nodeMoves u).toList.foldl
    (fun c m =>
      let (x, y) := c.graph.moves.getD m (0, 0)
      let v := if c.aliasOf y = c.aliasOf u then c.aliasOf x else c.aliasOf y
      let c := { c with
        pendingMoves := c.pendingMoves.erase m
        activeMoves := c.activeMoves.erase m }
      if !Node.isPhysical v && !c.moveRelated v && !c.isSignificant v && c.freezeList.contains v then
        { c with freezeList := c.freezeList.erase v, simplifyList := c.simplifyList.insert v }
      else c)
    c

/-- Gives up the copies of a node so that it can be taken. -/
def freeze (c : Coloring) (n : Nat) : Coloring :=
  let c := { c with
    freezeList := c.freezeList.erase n
    simplifyList := c.simplifyList.insert n }
  c.freezeMoves n

/-- Whether `a` is better to do without than `b`: it removes more edges for its use in loops, each level
of weight halving the gain. -/
def outweighs (c : Coloring) (a b : Nat) : Bool :=
  let weight := fun n => min (c.graph.loopWeight.getD n 0) 1000
  decide (c.degreeOf b <<< weight a < c.degreeOf a <<< weight b)

/-- The first of some nodes that no other outweighs. -/
def best? (c : Coloring) : List Nat → Option Nat
  | [] => none
  | n :: rest => some (rest.foldl (fun best m => if c.outweighs m best then m else best) n)

/-- The node to take in the hope of a colour; spill temporaries only when nothing else is left. -/
def spillCandidate? (c : Coloring) : Option Nat :=
  let (temps, others) := c.spillList.toList.partition c.temps.contains
  (c.best? others).orElse fun _ => c.best? temps

/-- Makes a node of high degree ready to be taken. -/
def hope (c : Coloring) (n : Nat) : Coloring :=
  let c := { c with spillList := c.spillList.erase n, simplifyList := c.simplifyList.insert n }
  c.freezeMoves n

/-- One step, if there is something left to do. -/
def step? (c : Coloring) : Option Coloring :=
  match c.simplifyList.min? with
  | some n => some (c.simplify n)
  | none =>
    match c.pendingMoves.min? with
    | some m => some (c.coalesce m)
    | none =>
      match c.freezeList.min? with
      | some n => some (c.freeze n)
      | none => c.spillCandidate?.map c.hope

/-- Takes steps until nothing is left to do, at most `limit`. -/
def runWithin : (limit : Nat) → Coloring → Coloring
  | 0, c => c
  | limit + 1, c =>
    match c.step? with
    | some next => runWithin limit next
    | none => c

/-- Takes the whole graph apart. -/
def run (c : Coloring) : Coloring :=
  let items := c.degree.size + c.graph.moves.size + 2
  runWithin (items * items * items) c

/-- The colour of a node: a physical register is its own. -/
def colorOf? (c : Coloring) (n : Nat) : Option Register :=
  if Node.isPhysical n then Register.ofNat? n else c.colors.getD n none

/-- The colours of the neighbours of a node. -/
def usedColors (c : Coloring) (n : Nat) : RegisterSet :=
  .ofList ((c.graph.neighbours.getD n .empty).toList.filterMap fun w => c.colorOf? (c.aliasOf w))

/-- The neighbour of a spill temporary that should give up its colour. -/
def victim? (c : Coloring) (n : Nat) : Option Nat :=
  c.best? (((c.graph.neighbours.getD n .empty).toList.map c.aliasOf).filter fun a =>
    !Node.isPhysical a && !c.temps.contains a && (c.colorOf? a).isSome)

/-- Colours the nodes of the stack, latest first, with the lowest colour that is free; gives the nodes
for which there is none. A spill temporary without a colour sends a neighbour away instead. -/
def assignColors (function : String) : List Nat → NatSet → Coloring →
    Outcome (NatSet × Coloring)
  | [], spilled, c => .ok (spilled, c)
  | n :: rest, spilled, c =>
    let c := { c with stacked := c.stacked.erase n }
    match c.budget.lowestOutside? (c.usedColors n) with
    | some r => assignColors function rest spilled
        { c with colors := c.colors.setIfInBounds n (some r) }
    | none =>
      if c.temps.contains n then
        match c.victim? n with
        | some v => assignColors function rest (spilled.insert v) c
        | none => Outcome.report (.registerAllocation function
            (.uncolourableTemporary (Node.name n) c.colorCount))
      else assignColors function rest (spilled.insert n) c

/-- The registers of all virtual registers, merged nodes taking that of the node that stands for
them. -/
def assignment (c : Coloring) (function : String) : Outcome (List Register) :=
  (List.range' Node.firstVirtual (c.degree.size - Node.firstVirtual)).mapM fun n =>
    match c.colorOf? (c.aliasOf n) with
    | some r => pure r
    | none => Outcome.report (.invariant function (.uncoloured (Node.name n)))

end Coloring

end SsaCompiler
