import SsaCompiler.Graph.LoopForest

/-!
# Listings of the analyses

Each analysis prints as a heading, one line per block or loop, and a closing line.
-/

set_option autoImplicit false

namespace SsaCompiler.Cfg

/-- Block labels in brackets. -/
def labels (g : Cfg) (blocks : List Nat) : String :=
  "[" ++ ", ".intercalate (blocks.map g.label) ++ "]"

/-- The listing of the reverse postorder. -/
def orderText (g : Cfg) : Outcome String := do
  let r ← ReversePostorder.ofCfg g
  let lines := r.order.zipIdx.map fun (b, i) => s!"{i}: {g.label b}\n"
  return s!"RPO for func {g.name}\n" ++ String.join lines ++ "End RPO\n"

/-- The listing of the dominator tree. -/
def listDominators (g : Cfg) (t : DominatorTree) : String :=
  let line (b : Nat) : String :=
    if t.isReachable b then
      let idom := match t.idom? b with
        | some d => g.label d
        | none => "-"
      let depth := (t.depth? b).getD 0
      s!"{g.label b}: idom={idom} depth={depth} dom_by={g.labels (t.dominatorsOf b)}\n"
    else s!"{g.label b}: unreachable\n"
  s!"Dominators for func {g.name}\n" ++ String.join (g.blocks.map line) ++ "End Dominators\n"

/-- The listing of the dominance frontiers. -/
def listFrontiers (g : Cfg) (t : DominatorTree) : String :=
  let line (b : Nat) : String := s!"{g.label b}: {g.labels (t.frontierOf b)}\n"
  s!"Frontiers for func {g.name}\n" ++ String.join ((g.blocks.filter t.isReachable).map line)
    ++ "End Frontiers\n"

/-- The listing of the loop forest. -/
def listLoops (g : Cfg) (f : LoopForest) : String :=
  let line (l : NaturalLoop) (i : Nat) : String :=
    let parent := match l.parent with
      | some p => toString p
      | none => "-"
    s!"loop {i}: header={g.label l.header} depth={f.depth i} parent={parent} "
      ++ s!"blocks={g.labels l.blocks}\n"
  s!"Loops for func {g.name}\n" ++ String.join (f.loops.toList.zipIdx.map fun (l, i) => line l i)
    ++ "End Loops\n"

/-- The listing of the dominator tree of a graph. -/
def dominatorsText (g : Cfg) : Outcome String := do
  return g.listDominators (← DominatorTree.ofCfg g)

/-- The listing of the dominance frontiers of a graph. -/
def frontiersText (g : Cfg) : Outcome String := do
  return g.listFrontiers (← DominatorTree.ofCfg g)

/-- The listing of the loop forest of a graph. -/
def loopsText (g : Cfg) : Outcome String := do
  return g.listLoops (LoopForest.ofCfg g (← DominatorTree.ofCfg g))

end SsaCompiler.Cfg
