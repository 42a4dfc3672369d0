import SsaCompiler.Graph.LoopForest
import SsaCompiler.Ir.Module
import SsaCompiler.Machine.Function
import SsaCompiler.Machine.Runtime

/-!
# Selecting instructions

One pass over the blocks of a function in layout order. A value gets its virtual register when it
is first mentioned, so phis and operands that flow around loops may be named before they are
defined. The addresses of globals and strings are loaded once, at the front of the entry block.
Slots are addressed from the stack pointer, and their addresses are computed again where they are
needed as values. A comparison whose only use is the branch right behind it becomes part of the
branch.

Phis come last. Each phi has a fresh register that every predecessor sets just before it leaves,
and its block starts by copying these registers into those of the phis. No copy overwrites what
another copy of its group still reads.
-/

set_option autoImplicit false

namespace SsaCompiler

/-- What a selection works on. -/
structure SelectionContext where
  module : Module
  func : Function
  /-- The comparisons that become part of their branch. -/
  fused : NatSet

/-- The state of a selection. -/
structure Selection where
  code : MachineFunction
  /-- By value, its virtual register. -/
  registers : Array (Option Operand)
  /-- The frame offsets of the slots, by address value. -/
  slots : List (ValueId × Word) := []
  /-- The registers that hold the addresses of labels. -/
  addresses : List (String × Operand) := []
  /-- The place in the entry block where the next address is loaded. -/
  entryFront : Nat := 0
  /-- The block to which instructions are appended. -/
  current : Nat := 0

/-- A step of a selection. -/
abbrev Select := StateT Selection Outcome

/-- The exponent of a power of two. -/
def powerOfTwo? (n : Nat) : Option Nat :=
  if 0 < n && 1 <<< n.log2 = n then some n.log2 else none

namespace Select

/-- Ends with a reported error. -/
def report {α : Type} (cause : CompileError) : Select α := StateT.lift (Outcome.report cause)

/-- Appends an instruction. -/
def emit (i : Instr) : Select Unit := modify fun s => { s with code := s.code.push s.current i }

/-- A fresh virtual register. -/
def newVreg : Select Operand := modifyGet fun s =>
  let (op, code) := s.code.newVreg
  (op, { s with code })

/-- The virtual register of a value. -/
def vregFor (v : ValueId) : Select Operand := do
  match (← get).registers.getD v none with
  | some op => return op
  | none =>
    let op ← newVreg
    modify fun s => { s with registers := s.registers.setIfInBounds v (some op) }
    return op

/-- The register that holds the address of a label, loaded in the entry block. -/
def cachedAddress (label : String) : Select Operand := do
  match (← get).addresses.lookup label with
  | some op => return op
  | none =>
    let op ← newVreg
    modify fun s =>
      { s with
        code := s.code.modifyInsts 0 fun insts => insts.insertIdx s.entryFront (.loadAddr op label)
        entryFront := s.entryFront + 1
        addresses := (label, op) :: s.addresses }
    return op

/-- The address of a string constant. -/
def stringAddress (ctx : SelectionContext) (id : StringId) : Select Operand := do
  let s ← ctx.module.string id
  cachedAddress (stringLabel s.name)

/-- Adds a number to a register. -/
def emitAddImmediate (dst src : Operand) (c : Word) : Select Unit := do
  if Word.fitsSigned16 c then emit (.binary .addu dst src (.immediate c))
  else
    let t ← newVreg
    emit (.move t (.immediate c))
    emit (.binary .addu dst src t)

/-- A value that is not a slot: a number, a loaded address or its register. -/
def plainOperand (ctx : SelectionContext) (v : ValueId) : Select Operand := do
  match (ctx.func.value v).kind with
  | .const c => return .immediate c
  | .global g =>
    let global ← ctx.module.global g
    cachedAddress (globalLabel global.name)
  | .str s => stringAddress ctx s
  | .param _ | .inst _ => vregFor v

/-- A value as an operand. The address of a slot is computed on the spot. -/
def operand (ctx : SelectionContext) (v : ValueId) : Select Operand := do
  match (← get).slots.lookup v with
  | some offset =>
    let dst ← newVreg
    emitAddImmediate dst .sp offset
    return dst
  | none => plainOperand ctx v

/-- A value in a register. -/
def register (ctx : SelectionContext) (v : ValueId) : Select Operand := do
  match ← operand ctx v with
  | .immediate c =>
    if c = 0 then return .zero
    let dst ← newVreg
    emit (.move dst (.immediate c))
    return dst
  | op => return op

/-- The register for the result of an instruction. -/
def define (ctx : SelectionContext) (i : InstId) : Select Operand := do
  vregFor (← ctx.func.resultOf i)

/-- The condition of a comparison with a register on the left and a register or a small number on the
right. A number on the left goes to the right with the condition mirrored. -/
def compareOperands (ctx : SelectionContext) (op : BinaryOp) (l r : ValueId) :
    Select (Cond × Operand × Operand) := do
  let isConst := fun v => (ctx.func.const? v).isSome
  let (op, l, r) := match op.swapped? with
    | some mirrored => if isConst l && !isConst r then (mirrored, r, l) else (op, l, r)
    | none => (op, l, r)
  match Cond.ofBinary? op with
  | none => report (.invariant ctx.func.name (.notACompare op.title))
  | some cond =>
    let lhs ← register ctx l
    match ctx.func.const? r with
    | some c =>
      if Word.fitsSigned16 c then return (cond, lhs, .immediate c)
      return (cond, lhs, ← register ctx r)
    | none => return (cond, lhs, ← register ctx r)

/-- The right operand of an arithmetic instruction: a number where it fits. -/
def rightOperand (ctx : SelectionContext) (op : MachineOp) (r : ValueId) : Select Operand :=
  match ctx.func.const? r with
  | some c => if op.acceptsImmediate c then return .immediate c else register ctx r
  | none => register ctx r

/-- The number to add instead of subtracting a constant, if it is small. -/
def negatedConstant? (ctx : SelectionContext) (op : MachineOp) (r : ValueId) : Option Word :=
  match op, ctx.func.const? r with
  | .subu, some c => (Word.neg? c).filter Word.fitsSigned16
  | _, _ => none

/-- Selects a binary operation. -/
def selectBinary (ctx : SelectionContext) (i : InstId) (op : BinaryOp) (l r : ValueId) :
    Select Unit := do
  let dst ← define ctx i
  if op.isCompare then
    let (cond, lhs, rhs) ← compareOperands ctx op l r
    emit (.compare cond dst lhs rhs)
  else
    match MachineOp.ofBinary? op with
    | none => report (.invariant ctx.func.name (.noMachineOperator op.title))
    | some mop =>
      let isConst := fun v => (ctx.func.const? v).isSome
      let (l, r) := if isConst l && !isConst r && op.isCommutative then (r, l) else (l, r)
      match negatedConstant? ctx mop r with
      | some c =>
        let lhs ← register ctx l
        emit (.binary .addu dst lhs (.immediate c))
      | none =>
        let lhs ← register ctx l
        let rhs ← rightOperand ctx mop r
        emit (.binary mop dst lhs rhs)

/-- Selects the address of an element. -/
def selectGep (ctx : SelectionContext) (i : InstId) (base index : ValueId) (multiplier : Word) :
    Select Unit := do
  let dst ← define ctx i
  let scale := multiplier * 4
  match ctx.func.const? index with
  | some c =>
    let delta := c * scale
    match (← get).slots.lookup base with
    | some slot => emitAddImmediate dst .sp (slot + delta)
    | none => emitAddImmediate dst (← register ctx base) delta
  | none =>
    let idx ← register ctx index
    let scaled ← newVreg
    match powerOfTwo? scale.toInt.toNat with
    | some k => emit (.binary .sll scaled idx (.immediate (Int32.ofNat k)))
    | none =>
      let factor ← newVreg
      emit (.move factor (.immediate scale))
      emit (.binary .mul scaled idx factor)
    let start ← register ctx base
    emit (.binary .addu dst start scaled)

/-- A base and an offset that fits an access instruction. -/
def foldOffset (base : Operand) (offset : Word) : Select (Operand × Word) := do
  if Word.fitsSigned16 offset then return (base, offset)
  let addr ← newVreg
  emitAddImmediate addr base offset
  return (addr, 0)

/-- The base and offset of an element. -/
def address (ctx : SelectionContext) (base index : ValueId) : Select (Operand × Word) := do
  let (start, offset) ← match (← get).slots.lookup base with
    | some slot => pure (Operand.sp, slot)
    | none => do pure (← register ctx base, 0)
  match ctx.func.const? index with
  | some c => foldOffset start (offset + c * 4)
  | none =>
    let idx ← register ctx index
    let scaled ← newVreg
    emit (.binary .sll scaled idx (.immediate 2))
    let addr ← newVreg
    emit (.binary .addu addr scaled start)
    foldOffset addr offset

/-- The offset of the stack word of argument `k`, given that of the first argument with such a word. -/
def stackOffset? (first : Word) (k : Nat) : Option Word := do
  let words ← Word.add? (Int32.ofNat k) (-4)
  Word.add? first (← Word.mul? 4 words)

/-- Selects a call: the first arguments go to registers, the others below the stack pointer. -/
def selectCall (ctx : SelectionContext) (label : String) (args : List ValueId) : Select Unit := do
  let inRegs := Register.arguments.length
  let stackArgs := args.length - inRegs
  let lowest ← Outcome.ofOption (Word.mul? (-4) (Int32.ofNat stackArgs))
  ((args.drop inRegs).zipIdx inRegs).forM fun (arg, k) => do
    let src ← register ctx arg
    let offset ← Outcome.ofOption (stackOffset? lowest k)
    emit (.store src .sp offset)
  (args.zip Register.arguments).forM fun (arg, r) => do
    let src ← operand ctx arg
    emit (.move (.fixed r) src)
  emit (.call label (min args.length inRegs) stackArgs)

/-- Selects the pieces of a print with the arguments left. -/
def selectPieces (ctx : SelectionContext) : List PrintPiece → List ValueId → Select Unit
  | [], _ => pure ()
  | .str s :: pieces, args => do
    let src ← stringAddress ctx s
    emit (.move (.fixed .a0) src)
    emit (.call Builtin.putStr.label 1 0)
    selectPieces ctx pieces args
  | .arg :: pieces, v :: args => do
    let src ← operand ctx v
    emit (.move (.fixed .a0) src)
    emit (.call Builtin.putInt.label 1 0)
    selectPieces ctx pieces args
  | .arg :: _, [] => report (.invariant ctx.func.name .printArity)

/-- The text of a crash on a block without machine block. -/
def missingBlockText : String := "no entry found for key"

/-- The machine block of a block, which must be in the layout. -/
def blockIndex (ctx : SelectionContext) (b : BlockId) : Outcome Nat :=
  match ctx.func.layout.idxOf? b with
  | some k => .ok k
  | none => .error (.crash (some missingBlockText))

/-- Selects a conditional branch: a jump to the true arm on the condition, then a jump to the other. -/
def selectBranch (ctx : SelectionContext) (i : InstId) (thenBlock elseBlock : BlockId) :
    Select Unit := do
  let f := ctx.func
  let thenTarget ← blockIndex ctx thenBlock
  let elseTarget ← blockIndex ctx elseBlock
  let cond ← f.operand i 0
  match (f.definingInst? cond).filter ctx.fused.contains with
  | some cmp =>
    match f.kind cmp with
    | .binary op =>
      let l ← f.operand cmp 0
      let r ← f.operand cmp 1
      let (c, lhs, rhs) ← compareOperands ctx op l r
      emit (.branch c lhs rhs thenTarget)
    | _ => report (.invariant f.name .fusedNonCompare)
  | none =>
    let lhs ← register ctx cond
    emit (.branch .ne lhs .zero thenTarget)
  emit (.jump elseTarget)

/-- Selects an instruction. -/
def selectInst (ctx : SelectionContext) (i : InstId) : Select Unit := do
  let f := ctx.func
  match f.kind i with
  | .binary op => selectBinary ctx i op (← f.operand i 0) (← f.operand i 1)
  | .branch thenBlock elseBlock => selectBranch ctx i thenBlock elseBlock
  | .jump target => emit (.jump (← blockIndex ctx target))
  | .ret =>
    match (f.operands i).head? with
    | some v =>
      let src ← operand ctx v
      emit (.move .v0 src)
      emit (.ret true)
    | none => emit (.ret false)
  | .gep multiplier => selectGep ctx i (← f.operand i 0) (← f.operand i 1) multiplier
  | .load =>
    let (base, offset) ← address ctx (← f.operand i 0) (← f.operand i 1)
    let dst ← define ctx i
    emit (.load dst base offset false)
  | .store =>
    let (base, offset) ← address ctx (← f.operand i 0) (← f.operand i 1)
    let src ← register ctx (← f.operand i 2)
    emit (.store src base offset)
  | .call callee =>
    let label := match callee with
      | .func id => functionLabel (ctx.module.function id).name
      | .builtin b => b.label
    selectCall ctx label (f.operands i)
    match f.result? i with
    | some result =>
      let dst ← vregFor result
      emit (.move dst .v0)
    | none => pure ()
  | .print pieces => selectPieces ctx pieces (f.operands i)
  | .alloca _ | .phi => pure ()

/-- Selects the instructions of a block. -/
def selectBlock (ctx : SelectionContext) (b : BlockId) : Select Unit := do
  let index ← blockIndex ctx b
  modify fun s => { s with current := index }
  ((ctx.func.instsOf b).filter fun i => !ctx.fused.contains i).forM (selectInst ctx)

/-- Reserves the frame words of a slot. -/
def assignSlot (f : Function) (i : InstId) : Select Unit := do
  match f.kind i with
  | .alloca words =>
    let v ← f.resultOf i
    let bytes ← Outcome.ofOption (Word.mul? 4 (Int32.ofNat words))
    let (offset, code) ← (← get).code.allocFrame bytes
    modify fun s => { s with code, slots := (v, offset) :: s.slots }
  | _ => pure ()

/-- Brings a parameter into its register, from an argument register or from the caller's frame. -/
def bindParam (v : ValueId) (k : Nat) : Select Unit := do
  let dst ← vregFor v
  match Register.arguments[k]? with
  | some r => emit (.move dst (.fixed r))
  | none =>
    let offset ← Outcome.ofOption (stackOffset? 0 k)
    emit (.load dst .sp offset true)

/-- A copy of a value into a register, to be placed at the end of another block. -/
def copyInto (ctx : SelectionContext) (dst : Operand) (v : ValueId) : Select Instr := do
  match (← get).slots.lookup v with
  | some slot => return .binary .addu dst .sp (.immediate slot)
  | none => return .move dst (← plainOperand ctx v)

/-- Gives each phi of a block its fresh register and copies that into the phi's own register at the
top of the block. -/
def receivePhis (ctx : SelectionContext) (block : BlockId) (target : Nat) (phis : List InstId) :
    Select (List Operand) :=
  phis.zipIdx.mapM fun (phi, i) => do
    let f := ctx.func
    let slots := (f.operands phi).length
    let preds := (f.preds block).length
    if slots ≠ preds then report (.phiArity f.name (f.blockName block) slots preds)
    match f.result? phi with
    | none => report (.invariant f.name .phiWithoutResult)
    | some result =>
      let temp ← newVreg
      let dst ← vregFor result
      modify fun s =>
        { s with code := s.code.modifyInsts target fun insts => insts.insertIdx i (.move dst temp) }
      return temp

/-- Sets the fresh registers of a block's phis at the end of one predecessor. -/
def sendPhis (ctx : SelectionContext) (phis : List InstId) (temps : List Operand) (slot : Nat)
    (pred : BlockId) : Select Unit := do
  let source ← blockIndex ctx pred
  let copies ← (phis.zip temps).mapM fun (phi, temp) => do
    copyInto ctx temp (← ctx.func.operand phi slot)
  modify fun s =>
    let pos := s.code.firstTransfer source
    { s with code := s.code.modifyInsts source fun insts =>
        insts.take pos ++ copies ++ insts.drop pos }

/-- Lowers the phis of a block to copies. A predecessor with two edges to the block must give the same
values on both. -/
def lowerPhis (ctx : SelectionContext) (block : BlockId) : Select Unit := do
  let f := ctx.func
  let phis := f.phis block
  if phis.isEmpty then return
  let target ← blockIndex ctx block
  let temps ← receivePhis ctx block target phis
  (f.preds block).zipIdx.forM fun (pred, slot) => do
    let first := (f.preds block).idxOf pred
    if first = slot then sendPhis ctx phis temps slot pred
    else if phis.any fun phi => (f.operands phi)[first]? != (f.operands phi)[slot]? then
      report (.invariant f.name (.conflictingPhiValues (f.blockName block) (f.blockName pred)))

/-- Selects a whole function whose slots are assigned. -/
def selectAll (ctx : SelectionContext) : Select Unit := do
  let f := ctx.func
  f.params.zipIdx.forM fun (v, k) => bindParam v k
  modify fun s => { s with entryFront := (s.code.instsOf 0).length }
  f.layout.forM (selectBlock ctx)
  f.layout.forM (lowerPhis ctx)

end Select

namespace Function

/-- The comparison of a block that its branch can take in: the instruction right before the branch,
used by nothing but the branch. -/
def fusableCompare? (f : Function) (b : BlockId) : Outcome (Option InstId) := do
  let insts := f.instsOf b
  if insts.length < 2 then return none
  let term ← f.terminator b
  if !(f.kind term).isBranch then return none
  let cond ← f.operand term 0
  match f.definingInst? cond with
  | none => return none
  | some d =>
    match f.kind d with
    | .binary op =>
      return if op.isCompare && (f.uses cond).length = 1 && insts.dropLast.getLast? = some d
        then some d else none
    | _ => return none

/-- The machine code of a function with the given loops, on virtual registers. -/
def select (m : Module) (f : Function) (loops : LoopForest) : Outcome MachineFunction := do
  let blank := MachineFunction.new f.name f.returnsValue
  let code := f.layout.foldl (fun mf b => mf.addBlock (loops.blockDepth b)) blank
  let start : Selection := { code, registers := Array.replicate f.values.size none }
  let (_, s) ← (f.placedInsts.forM (Select.assignSlot f)).run start
  let fused ← f.layout.mapM f.fusableCompare?
  let ctx : SelectionContext := { module := m, func := f, fused := .ofList (fused.filterMap id) }
  let (_, s) ← (Select.selectAll ctx).run s
  s.code.linkBlocks

end Function

end SsaCompiler
