import SsaCompiler.Graph.ReversePostorder
import SsaCompiler.Ir.Edit

/-!
# Simplifying control flow

Four steps, each of which makes a function smaller:

* a branch on a constant, or with equal arms, becomes a jump;
* a block that holds nothing but a jump is spliced out;
* blocks that the entry does not reach are removed;
* a phi in a block with one predecessor is replaced by its only operand.

They are repeated in this order until none applies. Every step removes a branch, a block or a
phi and none adds one, which bounds the number of repetitions.
-/

set_option autoImplicit false

namespace SsaCompiler.Edit

/-- Performs an action for each block and adds up the counts. -/
def countOver (blocks : List BlockId) (action : BlockId → Edit Nat) : Edit Nat :=
  blocks.foldlM (fun count b => do return count + (← action b)) 0

/-- The arm that a branch always takes and the arm that it never needs, if that is certain. -/
def fixedArm? (f : Function) (cond : ValueId) (thenBlock elseBlock : BlockId) :
    Option (BlockId × BlockId) :=
  match f.const? cond with
  | some c => if c ≠ 0 then some (thenBlock, elseBlock) else some (elseBlock, thenBlock)
  | none => if thenBlock = elseBlock then some (thenBlock, elseBlock) else none

/-- Turns the branch of a block into a jump where its arm is certain. -/
def foldBranch (b : BlockId) : Edit Nat := do
  let term ← ask (·.terminator b)
  match (← get).kind term with
  | .branch thenBlock elseBlock =>
    let cond ← ask (·.operand term 0)
    match fixedArm? (← get) cond thenBlock elseBlock with
    | none => return 0
    | some (taken, dropped) =>
      let _ ← replaceTerminator b (.jump taken) []
      let f ← get
      match f.predIndex? dropped b with
      | none =>
        report (.invariant f.name (.missingPredecessor (f.blockName b) (f.blockName dropped)))
      | some idx =>
        removePredAt dropped idx
        return 1
  | _ => return 0

/-- Turns branches into jumps where the arm is certain. -/
def foldBranches : Edit Nat := do countOver (← get).layout foldBranch

/-- Whether one of the blocks ends in a branch with an arm to `target`. -/
def sharesBranch (blocks : List BlockId) (target : BlockId) : Edit Bool :=
  match blocks with
  | [] => return false
  | p :: rest => do
    let term ← ask (·.terminator p)
    match (← get).kind term with
    | .branch t e => if t = target || e = target then return true else sharesBranch rest target
    | _ => sharesBranch rest target

/-- Moves one edge into `block` over to `target`; the phis of `target` get the given operands for
it. -/
def moveEdge (block target : BlockId) (carried : List (InstId × ValueId)) (pred : BlockId) :
    Edit Unit := do
  let term ← ask (·.terminator pred)
  if ← redirectTarget term block target then
    addPred target pred
    carried.forM fun (phi, v) => pushOperand phi v
  else
    let f ← get
    report (.invariant f.name (.edgelessPredecessor (f.blockName block) (f.blockName pred)))

/-- Splices a block out that holds nothing but a jump. The block stays when it is the entry, when it
has no predecessor or jumps to itself, and when its target has phis and is also the arm of a branch
in a predecessor: then the two edges could not be told apart. -/
def elideBlock (entry block : BlockId) : Edit Nat := do
  let f ← get
  if block = entry || (f.block block).removed then return 0
  match f.instsOf block with
  | [only] =>
    match f.kind only with
    | .jump target =>
      let preds := f.preds block
      if target = block || preds.isEmpty then return 0
      let phis := f.phis target
      if !phis.isEmpty then
        if ← sharesBranch preds target then return 0
      match f.predIndex? target block with
      | none => report (.invariant f.name (.missingJumpPredecessor (f.blockName block)))
      | some idx =>
        let carried ← phis.mapM fun phi => do return (phi, ← ask (·.operand phi idx))
        removePredAt target idx
        preds.forM (moveEdge block target carried)
        removeBlocks [block]
        return 1
    | _ => return 0
  | _ => return 0

/-- Splices out the blocks that hold nothing but a jump. -/
def elideEmptyBlocks : Edit Nat := do
  let entry ← ask (·.entry)
  countOver (← get).layout (elideBlock entry)

/-- Removes the edges from an unreachable block to reachable ones. -/
def cutEdges (order : ReversePostorder) (block : BlockId) : Edit Unit := do
  let succs ← ask (·.successors block)
  succs.forM fun succ => do
    if order.isReachable succ then
      match (← get).predIndex? succ block with
      | some idx => removePredAt succ idx
      | none => pure ()

/-- Removes the blocks that the entry does not reach. -/
def pruneUnreachable : Edit Nat := do
  let order ← ask fun f => ReversePostorder.ofCfg f.cfg
  let dead := (← get).layout.filter fun b => !order.isReachable b
  if dead.isEmpty then return 0
  dead.forM (cutEdges order)
  removeBlocks dead
  return dead.length

/-- Replaces a phi in a block with one predecessor by its operand. -/
def removeSinglePhi (block : BlockId) (phi : InstId) : Edit Unit := do
  let f ← get
  match f.operands phi with
  | [incoming] =>
    match f.result? phi with
    | none => report (.invariant f.name .phiWithoutResult)
    | some result =>
      if incoming = result then
        report (.invariant f.name (.selfFeedingPhi (f.blockName block)))
      let _ ← replaceAllUses result incoming
      removeInst phi
  | operands => report (.phiArity f.name (f.blockName block) operands.length 1)

/-- Replaces the phis in blocks with one predecessor by their operands. -/
def removeSinglePredPhis : Edit Nat := do
  countOver (← get).layout fun block => do
    let f ← get
    if (f.preds block).length ≠ 1 then return 0
    let phis := f.phis block
    phis.forM (removeSinglePhi block)
    return phis.length

/-- One repetition of the four steps. -/
def simplifyCycle : Edit Nat := do
  let folded ← foldBranches
  let elided ← elideEmptyBlocks
  let pruned ← pruneUnreachable
  let removed ← removeSinglePredPhis
  return folded + elided + pruned + removed

/-- Repeats the steps until none applies, at most `limit` times, and counts them. -/
def simplifyWithin : (limit : Nat) → Edit Nat
  | 0 => return 0
  | limit + 1 => do
    let count ← simplifyCycle
    if count = 0 then return 0
    return count + (← simplifyWithin limit)

/-- The number of blocks, branches and phis of a function. -/
def simplifiable (f : Function) : Nat :=
  f.layout.length + f.placedInsts.countP fun i => (f.kind i).isBranch || (f.kind i).isPhi

/-- Simplifies the control flow of a function and counts the steps. -/
def simplify : Edit Nat := do simplifyWithin (simplifiable (← get) + 1)

end SsaCompiler.Edit
