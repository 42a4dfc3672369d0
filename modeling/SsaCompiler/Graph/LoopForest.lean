import SsaCompiler.Graph.DominatorTree

/-!
# Natural loops

A back edge leads to a block that dominates its source; that block is the header of a loop. The
body is found backwards from the sources of the back edges. Headers are visited children first in
the dominator tree, so an inner loop is known before the loop around it, and meeting one of its
blocks adopts the outermost loop known there as a child instead of walking its body again.

A second pass over the blocks in postorder lists bodies, children and the outermost loops.
-/

set_option autoImplicit false

namespace SsaCompiler

/-- A natural loop. -/
structure NaturalLoop where
  header : Nat
  /-- The header first, then the rest of the body, nested loops included. -/
  blocks : List Nat
  /-- The number of the loop directly around this one. -/
  parent : Option Nat
  /-- The numbers of the loops directly inside this one. -/
  children : List Nat
  deriving Repr, Inhabited

/-- The natural loops of a graph. -/
structure LoopForest where
  loops : Array NaturalLoop
  /-- By block number, the innermost loop around the block. -/
  innermost : Array (Option Nat)
  /-- The loops that no other loop contains. -/
  topLevel : List Nat
  deriving Repr

namespace LoopForest

/-- What is known while loops are found: by loop number its header and its parent, and by block
number the innermost loop. -/
structure Discovery where
  headers : Array Nat
  parents : Array (Option Nat)
  innermost : Array (Option Nat)

/-- The outermost loop around a loop. Parents have larger numbers than their children. -/
def outermost (parents : Array (Option Nat)) (id : Nat) : Nat :=
  match parents[id]?.join with
  | some parent => if _h : id < parent ∧ parent < parents.size then outermost parents parent else id
  | none => id
termination_by parents.size - id

/-- Grows the body of loop `id` from the blocks that are still to be looked at, latest first. -/
def grow (g : Cfg) (t : DominatorTree) (id : Nat) (d : Discovery) : List Nat → Discovery
  | [] => d
  | block :: rest =>
    if hb : block < d.innermost.size then
      match hi : d.innermost[block] with
      | none =>
        let d' := { d with innermost := d.innermost.set block (some id) }
        let more := if d.headers[id]? = some block then []
          else (g.preds block).filter t.isReachable
        grow g t id d' (more.reverse ++ rest)
      | some inner =>
        let outer := outermost d.parents inner
        if outer = id then grow g t id d rest
        else if ho : outer < d.parents.size then
          if hp : d.parents[outer] = none then
            let header := d.headers.getD outer 0
            let more := (g.preds header).filter fun p =>
              t.isReachable p && d.innermost[p]?.join != some outer
            grow g t id { d with parents := d.parents.set outer (some id) } (more.reverse ++ rest)
          else grow g t id d rest
        else grow g t id d rest
    else grow g t id d rest
termination_by pending => (d.innermost.count none + d.parents.count none, pending.length)
decreasing_by
  · exact Prod.Lex.left _ _ (Nat.add_lt_add_right (count_set_lt_count hb hi (by simp)) _)
  · exact Prod.Lex.right _ (by simp)
  · exact Prod.Lex.left _ _ (Nat.add_lt_add_left (count_set_lt_count ho hp (by simp)) _)
  · exact Prod.Lex.right _ (by simp)
  · exact Prod.Lex.right _ (by simp)
  · exact Prod.Lex.right _ (by simp)

/-- Starts a loop at a block if a back edge leads to it. -/
def visitHeader (g : Cfg) (t : DominatorTree) (d : Discovery) (header : Nat) : Discovery :=
  let sources := (g.preds header).filter fun p => t.isReachable p && t.dominates header p
  if sources.isEmpty then d
  else
    let id := d.headers.size
    let d' := { d with headers := d.headers.push header, parents := d.parents.push none }
    grow g t id d' sources.reverse

/-- All loops with their parents. -/
def discover (g : Cfg) (t : DominatorTree) : Discovery :=
  t.postOrder.foldl (visitHeader g t)
    { headers := #[], parents := #[], innermost := Array.replicate g.capacity none }

/-- A loop and all loops around it, from the inside out; at most `limit` of them. -/
def enclosing (parents : Array (Option Nat)) : (limit : Nat) → Option Nat → List Nat
  | 0, _ => []
  | _, none => []
  | limit + 1, some id => id :: enclosing parents limit parents[id]?.join

/-- Enters one block, in postorder, into the lists of the loops around it. When the block is the
header of its loop, all of that loop's body has been seen, so its lists are put in order. -/
def enterBlock (d : Discovery) (state : Array NaturalLoop × List Nat) (block : Nat) :
    Array NaturalLoop × List Nat :=
  let add (loops : Array NaturalLoop) (ids : List Nat) : Array NaturalLoop :=
    ids.foldl (fun loops id => loops.modify id fun l => { l with blocks := l.blocks ++ [block] })
      loops
  match d.innermost[block]?.join with
  | none => state
  | some id =>
    let around := enclosing d.parents d.parents.size (some id)
    if d.headers[id]? = some block then
      let (loops, top) := state
      let parent := d.parents[id]?.join
      let (loops, top) := match parent with
        | some p => (loops.modify p fun l => { l with children := l.children ++ [id] }, top)
        | none => (loops, top ++ [id])
      let loops := loops.modify id fun l =>
        { l with blocks := l.blocks.take 1 ++ (l.blocks.drop 1).reverse,
                 children := l.children.reverse }
      (add loops around.tail, top)
    else (add state.1 around, state.2)

/-- The loop forest of a graph with its dominator tree. -/
def ofCfg (g : Cfg) (t : DominatorTree) : LoopForest :=
  let d := discover g t
  let loops := (d.headers.zip d.parents).map fun (header, parent) =>
    { header, blocks := [header], parent, children := [] : NaturalLoop }
  let (loops, top) := t.blocks.reverse.foldl (enterBlock d) (loops, [])
  { loops, innermost := d.innermost, topLevel := top.reverse }

/-- The innermost loop around a block. -/
def loopOf? (f : LoopForest) (b : Nat) : Option Nat := f.innermost[b]?.join

/-- The nesting level of a loop; a loop in no other loop has level one. -/
def depth (f : LoopForest) (id : Nat) : Nat :=
  (enclosing (f.loops.map (·.parent)) f.loops.size (some id)).length

/-- The number of loops around a block. -/
def blockDepth (f : LoopForest) (b : Nat) : Nat :=
  match f.loopOf? b with
  | some id => f.depth id
  | none => 0

/-- Whether a block is the header of its innermost loop. -/
def isHeader (f : LoopForest) (b : Nat) : Bool :=
  match f.loopOf? b with
  | some id => (f.loops[id]?.map (·.header)) == some b
  | none => false

end LoopForest

end SsaCompiler
