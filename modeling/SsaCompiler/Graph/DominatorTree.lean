import SsaCompiler.Graph.BlockSet
import SsaCompiler.Graph.ReversePostorder

/-!
# Dominators

A block dominates another when every path from the entry to the other passes through it. The sets
of dominators are the greatest solution of "a block is dominated by itself and by what dominates
all its predecessors"; they are found by rounds over the reverse postorder that only ever shrink
the sets. Immediate dominators, the tree, its depths and the dominance frontiers are read off the
sets. Blocks that are not reachable have none of these.

Inside the tree a block is known by its *position* in the reverse postorder.
-/

set_option autoImplicit false

namespace SsaCompiler

/-- The dominator tree of a graph with its dominance frontiers. -/
structure DominatorTree where
  order : ReversePostorder
  /-- By position, the positions that dominate it. -/
  domBy : Array BlockSet
  /-- By position, the position of its immediate dominator. -/
  idom : Array (Option Nat)
  /-- By position, the blocks it dominates immediately. -/
  children : Array (List Nat)
  /-- By position, its distance from the root. -/
  depth : Array Nat
  /-- By position, its dominance frontier. -/
  frontier : Array (List Nat)
  /-- The number of rounds until the sets settled. -/
  rounds : Nat
  deriving Repr

namespace DominatorTree

/-- What dominates position `i` when its predecessors have the given sets. -/
def meet (n : Nat) (sets : Array BlockSet) (preds : List Nat) (i : Nat) : BlockSet :=
  let common := preds.foldl (fun common p => BlockSet.inter common (sets.getD p (.empty n))) (.full n)
  common.insert i

/-- Recomputes one position and tells whether some set has changed so far. -/
def refineAt (n : Nat) (preds : Array (List Nat)) (state : Array BlockSet × Bool) (i : Nat) :
    Array BlockSet × Bool :=
  let next := meet n state.1 (preds.getD i []) i
  if next = state.1.getD i (.empty n) then state else (state.1.setIfInBounds i next, true)

/-- One round over all positions but the entry. -/
def refine (n : Nat) (preds : Array (List Nat)) (sets : Array BlockSet) : Array BlockSet × Bool :=
  (List.range' 1 (n - 1)).foldl (refineAt n preds) (sets, false)

/-- Repeats rounds until one changes nothing, for at most `limit` rounds. -/
def settle (n : Nat) (preds : Array (List Nat)) :
    (limit done : Nat) → Array BlockSet → Option (Array BlockSet × Nat)
  | 0, _, _ => none
  | limit + 1, done, sets =>
    let (next, changed) := refine n preds sets
    if changed then settle n preds limit (done + 1) next else some (next, done + 1)

/-- The sets before the first round: the entry has only itself, all others have everything. -/
def startSets (n : Nat) : Array BlockSet :=
  Array.ofFn fun i : Fin n => if i.val = 0 then (BlockSet.empty n).insert 0 else .full n

/-- The strict dominator of position `b` that dominates no other strict dominator of it. -/
def nearest? (sets : Array BlockSet) (b : Nat) : Option Nat :=
  let strict := (sets.getD b (.empty 0)).toList.filter (· != b)
  strict.find? fun d => strict.all fun x => x == d || !(sets.getD x (.empty 0)).contains d

/-- The immediate dominators of all positions; the entry has none. -/
def immediate (g : Cfg) (order : List Nat) (sets : Array BlockSet) :
    Outcome (Array (Option Nat)) := do
  let found ← order.zipIdx.mapM fun (block, b) =>
    if b = 0 then pure none
    else match nearest? sets b with
      | some d => pure (some d)
      | none => Outcome.report (.invariant g.name (.noImmediateDominator (g.label block)))
  return found.toArray

/-- The children of each position, as blocks in reverse postorder. -/
def childLists (order : List Nat) (idom : Array (Option Nat)) : Array (List Nat) :=
  order.zipIdx.foldl
    (fun lists (block, b) => match idom[b]?.join with
      | some d => lists.modify d (· ++ [block])
      | none => lists)
    (Array.replicate order.length [])

/-- The positions below `p` in the tree with their depths, down to `height` levels. -/
def levels (children : Nat → List Nat) : (height p depth : Nat) → List (Nat × Nat)
  | 0, p, depth => [(p, depth)]
  | height + 1, p, depth =>
    (p, depth) :: (children p).flatMap fun c => levels children height c (depth + 1)

/-- Adds `block` to the frontier of `cur` and of its ancestors up to the first one that strictly
dominates position `pos`, the position of `block`. The walk takes at most `fuel` steps, which is
enough when `fuel` is the number of positions. -/
def climb (domBy : Array BlockSet) (idom : Array (Option Nat)) (block pos : Nat) :
    (fuel : Nat) → Option Nat → Array (List Nat) → Array (List Nat)
  | 0, _, frontier => frontier
  | _, none, frontier => frontier
  | fuel + 1, some cur, frontier =>
    if cur != pos && (domBy.getD pos (.empty 0)).contains cur then frontier
    else
      let grown := frontier.modify cur fun blocks =>
        if blocks.contains block then blocks else blocks ++ [block]
      climb domBy idom block pos fuel (idom.getD cur none) grown

/-- The dominance frontiers of all positions. -/
def frontiers (g : Cfg) (r : ReversePostorder) (domBy : Array BlockSet)
    (idom : Array (Option Nat)) : Outcome (Array (List Nat)) := do
  let n := r.order.length
  r.order.zipIdx.foldlM
    (fun frontier (block, source) => do
      let succs ← g.succs block
      return succs.foldl
        (fun frontier target => match r.position? target with
          | some pos => climb domBy idom target pos n (some source) frontier
          | none => frontier)
        frontier)
    (Array.replicate n [])

/-- The dominator tree of a graph. -/
def ofCfg (g : Cfg) : Outcome DominatorTree := do
  let r ← ReversePostorder.ofCfg g
  let n := r.order.length
  let preds := (r.order.map fun b => (g.preds b).filterMap r.position?).toArray
  let limit := n + 3
  match settle n preds limit 0 (startSets n) with
  | none => Outcome.report (.nonConvergence g.name .dominators (limit + 1))
  | some (domBy, rounds) =>
    let idom ← immediate g r.order domBy
    let children := childLists r.order idom
    let below := fun p => (children.getD p []).filterMap r.position?
    let depth := (levels below n 0 0).foldl (fun depth (p, d) => depth.setIfInBounds p d)
      (Array.replicate n 0)
    let frontier ← frontiers g r domBy idom
    return { order := r, domBy, idom, children, depth, frontier, rounds }

/-- The reachable blocks in reverse postorder. -/
def blocks (t : DominatorTree) : List Nat := t.order.order

/-- The root of the tree. -/
def root? (t : DominatorTree) : Option Nat := t.blocks.head?

/-- The position of a reachable block. -/
def position? (t : DominatorTree) (b : Nat) : Option Nat := t.order.position? b

/-- Whether a block takes part in the tree. -/
def isReachable (t : DominatorTree) (b : Nat) : Bool := (t.position? b).isSome

/-- The block at a position. -/
def blockAt? (t : DominatorTree) (p : Nat) : Option Nat := t.blocks[p]?

/-- Whether `a` dominates `b`; never when one of them is unreachable. -/
def dominates (t : DominatorTree) (a b : Nat) : Bool :=
  match t.position? a, t.position? b with
  | some pa, some pb => (t.domBy.getD pb (.empty 0)).contains pa
  | _, _ => false

/-- Whether `a` dominates `b` and is another block. -/
def strictlyDominates (t : DominatorTree) (a b : Nat) : Bool := a != b && t.dominates a b

/-- The blocks that dominate `b`, in reverse postorder. -/
def dominatorsOf (t : DominatorTree) (b : Nat) : List Nat :=
  match t.position? b with
  | some p => (t.domBy.getD p (.empty 0)).toList.filterMap t.blockAt?
  | none => []

/-- The immediate dominator of a block. -/
def idom? (t : DominatorTree) (b : Nat) : Option Nat := do
  let p ← t.position? b
  let d ← t.idom.getD p none
  t.blockAt? d

/-- The blocks that `b` dominates immediately. -/
def childrenOf (t : DominatorTree) (b : Nat) : List Nat :=
  match t.position? b with
  | some p => t.children.getD p []
  | none => []

/-- The depth of a block in the tree; the root has depth zero. -/
def depth? (t : DominatorTree) (b : Nat) : Option Nat :=
  (t.position? b).map fun p => t.depth.getD p 0

/-- The dominance frontier of a block. -/
def frontierOf (t : DominatorTree) (b : Nat) : List Nat :=
  match t.position? b with
  | some p => t.frontier.getD p []
  | none => []

/-- The blocks below `b`, children before parents, down to `height` levels. -/
def postOrderFrom (t : DominatorTree) : (height b : Nat) → List Nat
  | 0, b => [b]
  | height + 1, b => (t.childrenOf b).flatMap (t.postOrderFrom height) ++ [b]

/-- The blocks of the tree, children before parents. -/
def postOrder (t : DominatorTree) : List Nat :=
  match t.root? with
  | some root => t.postOrderFrom t.blocks.length root
  | none => []

end DominatorTree

end SsaCompiler
