import SsaCompiler.Error

/-!
# Control-flow graphs

The analyses see a function, of either kind, through one view: blocks are numbers, and the view
answers which block is the entry, how the blocks are laid out, and where the edges go. The
successors of a block come from its terminator, so asking for them may fail.
-/

set_option autoImplicit false

namespace SsaCompiler

/-- A control-flow graph as the analyses see it. -/
structure Cfg where
  /-- The name of the graph in diagnostics. -/
  name : String
  entry : Nat
  /-- The blocks in layout order. -/
  blocks : List Nat
  /-- An upper bound on the block numbers. -/
  capacity : Nat
  /-- The successors in terminator order. -/
  succs : Nat → Outcome (List Nat)
  /-- The predecessors in slot order. -/
  preds : Nat → List Nat
  /-- The printed name of a block. -/
  label : Nat → String

namespace Cfg

/-- The graph of adjacency lists: block `i` has the successors in entry `i`, and block zero is the
entry. -/
def ofAdjacency (name : String) (succs preds : Array (List Nat)) : Cfg where
  name := name
  entry := 0
  blocks := List.range succs.size
  capacity := succs.size
  succs b := Outcome.ofOption succs[b]?
  preds b := preds.getD b []
  label b := toString b

/-- The predecessor lists that belong to successor lists: every edge adds its source to the list of
its target, in the order of the sources. -/
def predecessorsOf (succs : Array (List Nat)) : Array (List Nat) :=
  let edges := (List.range succs.size).flatMap fun i => (succs.getD i []).map fun t => (i, t)
  edges.foldl (fun preds e => preds.modify e.2 (· ++ [e.1])) (Array.replicate succs.size [])

end Cfg

end SsaCompiler
