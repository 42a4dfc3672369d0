import SsaCompiler.Graph.Cfg
import SsaCompiler.Ir.Inst
import SsaCompiler.NatSet

/-!
# Functions

A function owns its values, instructions and blocks; its layout lists the blocks that are not
removed, the entry first. Questions about an unknown number answer with an empty record.
-/

set_option autoImplicit false

namespace SsaCompiler

/-- A function in static single assignment form. -/
structure Function where
  name : String
  returnsValue : Bool
  params : List ValueId := []
  values : Array ValueData := #[]
  insts : Array InstData := #[]
  blocks : Array BlockData := #[]
  /-- The blocks in order, without the removed ones. -/
  layout : List BlockId := []
  /-- The functions of the module that this one calls. -/
  callees : NatSet := .empty
  deriving Repr, Inhabited

namespace Function

/-- A function with its parameters and without blocks. -/
def new (name : String) (paramCount : Nat) (returnsValue : Bool) : Function where
  name := name
  returnsValue := returnsValue
  params := List.range paramCount
  values := Array.ofFn fun i : Fin paramCount => { kind := .param i.val }

/-- The record of a value. -/
def value (f : Function) (v : ValueId) : ValueData := f.values.getD v default

/-- The record of an instruction. -/
def inst (f : Function) (i : InstId) : InstData := f.insts.getD i default

/-- The record of a block. -/
def block (f : Function) (b : BlockId) : BlockData := f.blocks.getD b default

/-- The slots that read a value. -/
def uses (f : Function) (v : ValueId) : List Use := (f.value v).uses

/-- The constant that a value is. -/
def const? (f : Function) (v : ValueId) : Option Word := (f.value v).const?

/-- The instruction that defines a value. -/
def definingInst? (f : Function) (v : ValueId) : Option InstId :=
  match (f.value v).kind with
  | .inst i => some i
  | _ => none

/-- How diagnostics and listings name a value: a constant by its number, another value by its own
name or by its number in the arena. -/
def valueLabel (f : Function) (v : ValueId) : String :=
  match (f.value v).kind, (f.value v).name with
  | .const c, _ => Word.text c
  | _, some name => s!"%{name}"
  | _, none => s!"%v{v}"

/-- What an instruction does. -/
def kind (f : Function) (i : InstId) : InstKind := (f.inst i).kind

/-- The operands of an instruction. -/
def operands (f : Function) (i : InstId) : List ValueId := (f.inst i).operands

/-- The result of an instruction. -/
def result? (f : Function) (i : InstId) : Option ValueId := (f.inst i).result

/-- The block that lists an instruction. -/
def blockOf? (f : Function) (i : InstId) : Option BlockId := (f.inst i).block

/-- The operand in a slot, which must exist. -/
def operand (f : Function) (i : InstId) (slot : Nat) : Outcome ValueId :=
  Outcome.ofOption (f.operands i)[slot]?

/-- The name of a block. -/
def blockName (f : Function) (b : BlockId) : String := (f.block b).name

/-- The instructions of a block in order. -/
def instsOf (f : Function) (b : BlockId) : List InstId := (f.block b).insts

/-- The predecessors of a block in slot order. -/
def preds (f : Function) (b : BlockId) : List BlockId := (f.block b).preds

/-- The place of the first edge from `pred` in the predecessor list of `b`. -/
def predIndex? (f : Function) (b pred : BlockId) : Option Nat := (f.preds b).idxOf? pred

/-- The phis at the head of a block. -/
def phis (f : Function) (b : BlockId) : List InstId :=
  (f.instsOf b).takeWhile fun i => (f.kind i).isPhi

/-- The entry block, which must exist. -/
def entry (f : Function) : Outcome BlockId := Outcome.ofOption f.layout.head?

/-- The instructions that stand in blocks, in layout order. -/
def placedInsts (f : Function) : List InstId := f.layout.flatMap f.instsOf

/-- The terminator of a block, which must be its last instruction. -/
def terminator (f : Function) (b : BlockId) : Outcome InstId :=
  match (f.instsOf b).getLast? with
  | some i => if (f.kind i).isTerminator then .ok i
    else Outcome.report (.missingTerminator f.name (f.blockName b))
  | none => Outcome.report (.missingTerminator f.name (f.blockName b))

/-- The successors of a block, the true arm first. -/
def successors (f : Function) (b : BlockId) : Outcome (List BlockId) := do
  let term ← f.terminator b
  return (f.kind term).targets

/-- The result that an instruction must have. -/
def resultOf (f : Function) (i : InstId) : Outcome ValueId :=
  match f.result? i with
  | some v => .ok v
  | none => Outcome.report (.invariant f.name (.noResult i))

/-- The control-flow graph of a function. -/
def cfg (f : Function) : Cfg where
  name := f.name
  entry := f.layout.headD f.blocks.size
  blocks := f.layout
  capacity := f.blocks.size
  succs := f.successors
  preds := f.preds
  label := f.blockName

end Function

end SsaCompiler
