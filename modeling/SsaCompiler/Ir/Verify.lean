import SsaCompiler.Ir.Function

/-!
# Verifying functions

The structural rules that the passes rely on and keep: blocks end in their only terminator, phis
stand first and have one slot per predecessor, back references and use indexes agree with the
operand tables, and predecessor lists agree with the edges.
-/

set_option autoImplicit false

namespace SsaCompiler.Function

/-- Checks one operand slot against the use index. -/
def verifyOperand (f : Function) (i : InstId) (slot : Nat) (v : ValueId) : Outcome Unit := do
  if !(f.value v).live then
    Outcome.report (.danglingUse f.name (f.valueLabel v) s!"inst {i}")
  let hits := (f.uses v).countP fun u => u == ⟨i, slot⟩
  if hits ≠ 1 then
    Outcome.report (.invariant f.name (.useListCount (f.valueLabel v) i slot hits))

/-- Checks the instruction at place `pos` of a block. -/
def verifyInst (f : Function) (b : BlockId) (pos : Nat) (i : InstId) : Outcome Unit := do
  let insts := f.instsOf b
  if (f.kind i).isTerminator && pos + 1 ≠ insts.length then
    Outcome.report (.missingTerminator f.name (f.blockName b))
  if (f.kind i).isPhi then
    if (insts.take pos).any fun j => !(f.kind j).isPhi then
      Outcome.report (.invariant f.name (.latePhi (f.blockName b)))
    let slots := (f.operands i).length
    let preds := (f.preds b).length
    if slots ≠ preds then
      Outcome.report (.phiArity f.name (f.blockName b) slots preds)
  if f.blockOf? i ≠ some b then
    Outcome.report (.invariant f.name (.staleBackReference i))
  (f.operands i).zipIdx.forM fun (v, slot) => f.verifyOperand i slot v
  match f.result? i with
  | some r =>
    match (f.uses r).find? fun u => (f.blockOf? u.user).isNone with
    | some u => Outcome.report (.danglingUse f.name (f.valueLabel r) s!"detached inst {u.user}")
    | none => pure ()
  | none => pure ()

/-- Checks a block on its own. -/
def verifyBlock (f : Function) (b : BlockId) : Outcome Unit := do
  let _ ← f.terminator b
  (f.instsOf b).zipIdx.forM fun (i, pos) => f.verifyInst b pos i
  let succs ← f.successors b
  if succs.any fun s => (f.block s).removed then
    Outcome.report (.invariant f.name (.targetsRemovedBlock (f.blockName b)))

/-- The sources of the edges to a block, one per edge, in layout order. -/
def edgeSources (f : Function) (b : BlockId) : Outcome (List BlockId) := do
  let lists ← f.layout.mapM fun source => do
    let succs ← f.successors source
    return (succs.filter (· == b)).map fun _ => source
  return lists.flatten

/-- Block numbers in ascending order. -/
def sorted (blocks : List BlockId) : List BlockId := blocks.mergeSort fun a b => decide (a ≤ b)

/-- Checks the predecessor list of a block against the edges. -/
def verifyPreds (f : Function) (b : BlockId) : Outcome Unit := do
  let expected := sorted (← f.edgeSources b)
  let actual := sorted (f.preds b)
  if expected ≠ actual then
    Outcome.report (.invariant f.name (.predecessorMismatch (f.blockName b) actual expected))

/-- Checks all structural rules. -/
def verify (f : Function) : Outcome Unit := do
  match f.layout.head? with
  | none => Outcome.report (.invariant f.name .noBlocks)
  | some entry =>
    if !(f.preds entry).isEmpty then
      Outcome.report (.invariant f.name (.entryHasPredecessors (f.blockName entry)))
    f.layout.forM f.verifyBlock
    f.layout.forM f.verifyPreds

end SsaCompiler.Function
