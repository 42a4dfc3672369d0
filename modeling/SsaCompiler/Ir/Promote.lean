import SsaCompiler.Graph.DominatorTree
import SsaCompiler.Ir.Simplify

/-!
# Promoting slots to values

A slot of one word is promotable when it is only loaded and stored, always at index zero. Its loads
become the value that is current at their place: the value of the latest store, a phi where paths
with different stores meet, or zero where nothing was stored. Phis are placed on the iterated
dominance frontier of the blocks with stores; those that turn out to feed nothing are removed at
the end.
-/

set_option autoImplicit false

namespace SsaCompiler

/-- What promotion did. -/
structure PromotionStats where
  /-- The steps of simplifying control flow. -/
  cfgSteps : Nat := 0
  promoted : Nat := 0
  phisInserted : Nat := 0
  phisRemoved : Nat := 0
  deriving Repr, DecidableEq, Inhabited

namespace Edit

/-- Whether a use of a slot is an access at index zero of the slot itself. -/
def isPlainAccess (f : Function) (u : Use) : Outcome Bool := do
  match f.kind u.user with
  | .load | .store =>
    if u.slot = 0 && (f.blockOf? u.user).isSome then
      let index ← f.operand u.user 1
      return f.const? index == some 0
    else return false
  | _ => return false

/-- Whether a test holds for all elements, asked one after the other until it fails. -/
def allM {α : Type} (test : α → Outcome Bool) : List α → Outcome Bool
  | [] => return true
  | a :: rest => do if ← test a then allM test rest else return false

/-- The address of a slot that can be promoted. -/
def promotable? (f : Function) (i : InstId) : Outcome (Option ValueId) := do
  match f.kind i, f.result? i with
  | .alloca 1, some address =>
    if ← allM (isPlainAccess f) (f.uses address) then return some address else return none
  | _, _ => return none

/-- The slots that can be promoted, as instruction and address, in layout order. -/
def promotableSlots (f : Function) : Outcome (List (InstId × ValueId)) := do
  let found ← f.placedInsts.mapM fun i => do
    return (← promotable? f i).map fun address => (i, address)
  return found.filterMap id

/-- The blocks with a store to a slot, in layout order and without repetition. -/
def storeBlocks (f : Function) (address : ValueId) : Outcome (List BlockId) := do
  let found ← f.placedInsts.mapM fun i => do
    match f.kind i with
    | .store => return if (← f.operand i 0) = address then f.blockOf? i else none
    | _ => return none
  return (found.filterMap id).foldl (fun seen b => if seen.contains b then seen else seen ++ [b]) []

/-- Inserts phis for one slot on the frontiers of the blocks still to be looked at, latest first.
`placed` are the blocks that have their phi, `queued` those that were ever to be looked at. As every
block is queued once, `limit` may be the number of blocks. -/
def placePhis (tree : DominatorTree) (zeroId : ValueId) :
    (limit : Nat) → (placed queued : NatSet) → List BlockId → Edit (List InstId)
  | 0, _, _, _ => return []
  | _, _, _, [] => return []
  | limit + 1, placed, queued, x :: rest => do
    let targets := (tree.frontierOf x).filter fun y => !placed.contains y
    let phis ← targets.mapM fun y => do
      let phi ← createInst .phi (List.replicate ((← get).preds y).length zeroId) true
      insertPhi y phi
      return phi
    let fresh := targets.filter fun y => !queued.contains y
    let more ← placePhis tree zeroId limit (targets.foldl .insert placed) (fresh.foldl .insert queued)
      (fresh.reverse ++ rest)
    return phis ++ more

/-- Inserts the phis of all slots; the result gives the slot of each inserted phi. -/
def placeAllPhis (tree : DominatorTree) (slots : List ValueId) : Edit (List (InstId × Nat)) := do
  let stores ← slots.mapM fun address => ask fun f => storeBlocks f address
  let zeroId ← constValue 0
  let limit := (← get).blocks.size
  let placed ← stores.zipIdx.mapM fun (blocks, slot) => do
    let phis ← placePhis tree zeroId limit .empty (.ofList blocks) blocks.reverse
    return phis.map fun phi => (phi, slot)
  return placed.flatten

/-- The values that the slots have at a place of the walk, by slot number. -/
abbrev SlotValues := List ValueId

/-- Carries the slot values over one instruction: an inserted phi and a store set the value of their
slot, a load is replaced by it. Loads and stores of slots disappear. -/
def renameInst (slots : List ValueId) (phiSlot : List (InstId × Nat)) (current : SlotValues)
    (i : InstId) : Edit SlotValues := do
  match (← get).kind i with
  | .phi =>
    match phiSlot.lookup i with
    | some s => return current.set s (← ask (·.resultOf i))
    | none => return current
  | .load =>
    match slots.idxOf? (← ask (·.operand i 0)) with
    | some s =>
      let loaded ← ask (·.resultOf i)
      let _ ← replaceAllUses loaded (current.getD s 0)
      removeInst i
      return current
    | none => return current
  | .store =>
    match slots.idxOf? (← ask (·.operand i 0)) with
    | some s =>
      let data ← ask (·.operand i 2)
      removeInst i
      return current.set s data
    | none => return current
  | _ => return current

/-- Enters the slot values at the end of `block` into the inserted phis of a successor. -/
def fillPhis (phiSlot : List (InstId × Nat)) (current : SlotValues) (block succ : BlockId) :
    Edit Unit := do
  let f ← get
  let edges := ((f.preds succ).zipIdx.filter fun e => e.1 == block).map (·.2)
  (f.phis succ).forM fun phi => do
    match phiSlot.lookup phi with
    | some s => edges.forM fun slot => setOperand phi slot (current.getD s 0)
    | none => pure ()

/-- Carries the slot values from block to block, depth first; each block is visited once, with the
values at the end of the block from which the walk reached it. -/
def renameFrom (slots : List ValueId) (phiSlot : List (InstId × Nat)) (visited : Array Bool) :
    List (BlockId × SlotValues) → Edit Unit
  | [] => pure ()
  | (block, current) :: rest =>
    if h : block < visited.size then
      if hv : visited[block] = true then renameFrom slots phiSlot visited rest
      else do
        let last ← ((← get).instsOf block).foldlM (renameInst slots phiSlot) current
        let succs ← ask (·.successors block)
        succs.forM (fillPhis phiSlot last block)
        renameFrom slots phiSlot (visited.set block true)
          ((succs.map fun succ => (succ, last)).reverse ++ rest)
    else crash
termination_by pending => (visited.count false, pending.length)
decreasing_by
  · exact Prod.Lex.right _ (by simp)
  · exact Prod.Lex.left _ _ (count_set_lt_count h (by simpa using hv) (by simp))

/-- The phis among `phis` that the phis still to be looked at depend on, added to `live`. As every phi
is looked at once, `limit` may be their number. -/
def spreadLive (f : Function) (phis : List InstId) :
    (limit : Nat) → NatSet → List InstId → NatSet
  | 0, live, _ => live
  | _, live, [] => live
  | limit + 1, live, phi :: rest =>
    let feeding := (f.operands phi).filterMap fun v => phis.find? fun p => f.result? p == some v
    let fresh := feeding.foldl
      (fun found p => if live.contains p || found.contains p then found else found ++ [p]) []
    spreadLive f phis limit (fresh.foldl .insert live) (fresh.reverse ++ rest)

/-- The inserted phis on which an instruction other than an inserted phi depends. -/
def livePhis (f : Function) (phis : List InstId) : Outcome NatSet := do
  let results ← phis.mapM fun phi => do return (phi, ← f.resultOf phi)
  let start := (results.filter fun (_, v) =>
    (f.uses v).any fun u => !phis.contains u.user).map (·.1)
  return spreadLive f phis phis.length (.ofList start) start.reverse

/-- Removes the inserted phis on which nothing depends, and counts them. Their operands go first, as
they may depend on each other. -/
def removeDeadPhis (phis : List InstId) : Edit Nat := do
  let live ← ask fun f => livePhis f phis
  let dead := phis.filter fun phi => !live.contains phi
  let zeroId ← constValue 0
  dead.forM fun phi => do
    (List.range ((← get).operands phi).length).forM fun slot => setOperand phi slot zeroId
  dead.forM removeInst
  return dead.length

/-- Simplifies a function and promotes its slots. -/
def promote : Edit PromotionStats := do
  let cfgSteps ← simplify
  let slots ← ask promotableSlots
  if slots.isEmpty then return { cfgSteps }
  let addresses := slots.map (·.2)
  let tree ← ask fun f => DominatorTree.ofCfg f.cfg
  let phiSlot ← placeAllPhis tree addresses
  let zeroId ← constValue 0
  let entry ← ask (·.entry)
  renameFrom addresses phiSlot (Array.replicate (← get).blocks.size false)
    [(entry, addresses.map fun _ => zeroId)]
  slots.forM fun (alloca, _) => removeInst alloca
  let phisRemoved ← removeDeadPhis (phiSlot.map (·.1))
  return { cfgSteps, promoted := slots.length, phisInserted := phiSlot.length, phisRemoved }

end Edit

end SsaCompiler
