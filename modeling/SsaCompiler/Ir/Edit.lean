import SsaCompiler.Ir.Function

/-!
# Editing functions

All changes of a function are made by the actions of this file. Operand changes update the use
index of the values in the same step, so that a value's uses are exactly the slots that read it.
An action that reports an error keeps what it has changed so far; an action whose precondition
does not hold crashes.

Predecessor lists are edited on their own: removing a predecessor drops the phi slots that belong
to it, adding one leaves the new phi slots to the caller.
-/

set_option autoImplicit false

namespace SsaCompiler

/-- A list without the element at `i`, whose place the last element takes. -/
def swapRemove {α : Type} (l : List α) (i : Nat) : List α :=
  match l.getLast? with
  | some last => if i + 1 = l.length then l.dropLast else (l.set i last).dropLast
  | none => []

/-- A change of a function that gives a result or fails. -/
abbrev Edit := ExceptT Failure (StateM Function)

namespace Edit

/-- Ends with a crash without text. -/
def crash {α : Type} : Edit α := throw (.crash none)

/-- Ends with a crash with a text about the function. -/
def refuse {α : Type} (text : String) : Edit α := do
  let f ← get
  throw (.crash (some s!"{f.name}: {text}"))

/-- Refuses unless a condition holds. -/
def demand (condition : Bool) (text : String) : Edit Unit :=
  if condition then pure () else refuse text

/-- Ends with a reported error. -/
def report {α : Type} (cause : CompileError) : Edit α := throw (.error cause)

/-- Asks a question about the function. -/
def ask {α : Type} (question : Function → Outcome α) : Edit α := do
  match question (← get) with
  | .ok a => pure a
  | .error e => throw e

/-- Changes the record of a value, which must exist. -/
def modifyValue (v : ValueId) (change : ValueData → ValueData) : Edit Unit := do
  if v < (← get).values.size then
    modify fun f => { f with values := f.values.modify v change }
  else crash

/-- Changes the record of an instruction, which must exist. -/
def modifyInst (i : InstId) (change : InstData → InstData) : Edit Unit := do
  if i < (← get).insts.size then
    modify fun f => { f with insts := f.insts.modify i change }
  else crash

/-- Changes the record of a block, which must exist. -/
def modifyBlock (b : BlockId) (change : BlockData → BlockData) : Edit Unit := do
  if b < (← get).blocks.size then
    modify fun f => { f with blocks := f.blocks.modify b change }
  else crash

/-! ## Values -/

/-- Adds a value. -/
def newValue (kind : ValueKind) : Edit ValueId := do
  let v := (← get).values.size
  modify fun f => { f with values := f.values.push { kind } }
  return v

/-- The value that stands for a constant or an address; there is one value for each. -/
def internValue (kind : ValueKind) : Edit ValueId := do
  match (← get).values.findIdx? (fun d => d.kind == kind) with
  | some v => pure v
  | none => newValue kind

/-- The value of a constant. -/
def constValue (c : Word) : Edit ValueId := internValue (.const c)

/-- The value of a global's address. -/
def globalValue (g : GlobalId) : Edit ValueId := internValue (.global g)

/-- The value of a string's address. -/
def stringValue (s : StringId) : Edit ValueId := internValue (.str s)

/-- Names a value. -/
def setValueName (v : ValueId) (name : String) : Edit Unit :=
  modifyValue v fun d => { d with name := some name }

/-! ## Uses and operands -/

/-- Enters a slot into the use index of a value. -/
def addUse (v : ValueId) (u : Use) : Edit Unit :=
  modifyValue v fun d => { d with uses := d.uses ++ [u] }

/-- Strikes a slot from the use index of a value; the last entry takes its place. -/
def removeUse (v : ValueId) (u : Use) : Edit Unit := do
  match ((← get).uses v).idxOf? u with
  | some i => modifyValue v fun d => { d with uses := swapRemove d.uses i }
  | none =>
    refuse (s!"use-list of ValueId({v}) is missing "
      ++ s!"Use \x7b user: InstId({u.user}), slot: {u.slot} \x7d")

/-- Enters the slots of an operand list into the use index, from slot `slot` on. -/
def addUses (i : InstId) : (slot : Nat) → List ValueId → Edit Unit
  | _, [] => pure ()
  | slot, v :: rest => do
    addUse v ⟨i, slot⟩
    addUses i (slot + 1) rest

/-- Strikes the slots of an operand list from the use index, from slot `slot` on. -/
def removeUses (i : InstId) : (slot : Nat) → List ValueId → Edit Unit
  | _, [] => pure ()
  | slot, v :: rest => do
    removeUse v ⟨i, slot⟩
    removeUses i (slot + 1) rest

/-- Adds an instruction that stands in no block yet. -/
def createInst (kind : InstKind) (operands : List ValueId) (hasResult : Bool) : Edit InstId := do
  let i := (← get).insts.size
  let result ← if hasResult then some <$> newValue (.inst i) else pure none
  addUses i 0 operands
  modify fun f => { f with insts := f.insts.push { kind, operands, result } }
  return i

/-- Makes a slot read another value. -/
def setOperand (i : InstId) (slot : Nat) (v : ValueId) : Edit Unit := do
  let old ← ask (·.operand i slot)
  if old ≠ v then
    removeUse old ⟨i, slot⟩
    addUse v ⟨i, slot⟩
    modifyInst i fun d => { d with operands := d.operands.set slot v }

/-- Adds a slot at the end. -/
def pushOperand (i : InstId) (v : ValueId) : Edit Unit := do
  let slot := ((← get).operands i).length
  modifyInst i fun d => { d with operands := d.operands ++ [v] }
  addUse v ⟨i, slot⟩

/-- Moves the index entry of one slot of a value down by one. -/
def lowerUse (v : ValueId) (i : InstId) (slot : Nat) : Edit Unit :=
  modifyValue v fun d =>
    match d.uses.idxOf? ⟨i, slot⟩ with
    | some k => { d with uses := d.uses.set k ⟨i, slot - 1⟩ }
    | none => d

/-- Moves the index entries of an operand list, from slot `slot` on, down by one. -/
def lowerUses (i : InstId) : (slot : Nat) → List ValueId → Edit Unit
  | _, [] => pure ()
  | slot, v :: rest => do
    lowerUse v i slot
    lowerUses i (slot + 1) rest

/-- Removes a slot; the later slots move down by one. -/
def removeOperand (i : InstId) (slot : Nat) : Edit Unit := do
  let old ← ask (·.operand i slot)
  removeUse old ⟨i, slot⟩
  lowerUses i (slot + 1) (((← get).operands i).drop (slot + 1))
  modifyInst i fun d => { d with operands := d.operands.eraseIdx slot }

/-- Makes every slot that reads `old` read `new`, and gives the number of slots. -/
def replaceAllUses (old new : ValueId) : Edit Nat := do
  if old = new then return 0
  let moved := (← get).uses old
  modifyValue old fun d => { d with uses := [] }
  moved.forM fun u => modifyInst u.user fun d => { d with operands := d.operands.set u.slot new }
  modifyValue new fun d => { d with uses := d.uses ++ moved }
  return moved.length

/-- Takes all operands from an instruction. -/
def detachOperands (i : InstId) : Edit Unit := do
  let operands := (← get).operands i
  modifyInst i fun d => { d with operands := [] }
  removeUses i 0 operands

/-! ## Blocks and placement -/

/-- Adds a block at the end of the layout. -/
def createBlock (name : String) : Edit BlockId := do
  let b := (← get).blocks.size
  modify fun f => { f with blocks := f.blocks.push { name }, layout := f.layout ++ [b] }
  return b

/-- The block and place of an instruction, which must stand in a block. -/
def position (i : InstId) : Edit (BlockId × Nat) := do
  match (← get).blockOf? i with
  | none => refuse s!"InstId({i}) is not placed in a block"
  | some b =>
    match ((← get).instsOf b).idxOf? i with
    | some pos => pure (b, pos)
    | none => refuse s!"InstId({i}) missing from its block"

/-- Puts a detached instruction at a place of a block. -/
def place (b : BlockId) (pos : Nat) (i : InstId) : Edit Unit := do
  demand ((← get).blockOf? i).isNone s!"InstId({i}) is already placed"
  modifyBlock b fun d => { d with insts := d.insts.insertIdx pos i }
  modifyInst i fun d => { d with block := some b }

/-- Whether the last instruction of a block is a terminator. -/
def isTerminated (f : Function) (b : BlockId) : Bool :=
  match (f.instsOf b).getLast? with
  | some i => (f.kind i).isTerminator
  | none => false

/-- Appends a detached instruction to a block that has no terminator yet. A phi may only follow
phis. -/
def pushBack (b : BlockId) (i : InstId) : Edit Unit := do
  let f ← get
  demand (!isTerminated f b) s!"block {f.blockName b} already has a terminator"
  if (f.kind i).isPhi && (f.phis b).length != (f.instsOf b).length then crash
  place b (f.instsOf b).length i

/-- Puts a detached phi behind the phis of a block. -/
def insertPhi (b : BlockId) (i : InstId) : Edit Unit := do
  let f ← get
  if (f.kind i).isPhi then place b (f.phis b).length i else crash

/-- Puts a detached instruction before another one. -/
def insertBefore (anchor i : InstId) : Edit Unit := do
  let (b, pos) ← position anchor
  let f ← get
  demand (!(f.kind i).isTerminator) "terminators are appended, not inserted"
  if (f.kind i).isPhi then
    demand (pos ≤ (f.phis b).length) "phi inserted after non-phi"
  else
    demand (!(f.kind anchor).isPhi) "non-phi inserted into the phi prefix"
  place b pos i

/-- Puts a detached instruction behind another one. -/
def insertAfter (anchor i : InstId) : Edit Unit := do
  let (b, pos) ← position anchor
  let f ← get
  demand (!(f.kind anchor).isTerminator) "nothing may follow a terminator"
  demand (!(f.kind i).isTerminator) "terminators are appended, not inserted"
  if (f.kind i).isPhi then
    demand (f.kind anchor).isPhi "phi inserted after non-phi"
  else
    demand (pos + 1 ≥ (f.phis b).length) "non-phi inserted into the phi prefix"
  place b (pos + 1) i

/-- Removes an instruction whose result is not read. -/
def removeInst (i : InstId) : Edit Unit := do
  let f ← get
  match f.result? i with
  | some r =>
    match (f.uses r).head? with
    | some u => report (.danglingUse f.name (f.valueLabel r) s!"inst {u.user}")
    | none => modifyValue r fun d => { d with live := false }
  | none => pure ()
  detachOperands i
  match (← get).blockOf? i with
  | some b =>
    modifyInst i fun d => { d with block := none }
    modifyBlock b fun d => { d with insts := d.insts.filter (· != i) }
  | none => pure ()

/-- Removes whole blocks. All their operands go first, so their values may read one another; a
value that is still read from outside is reported. -/
def removeBlocks (doomed : List BlockId) : Edit Unit := do
  let insts := doomed.flatMap (← get).instsOf
  insts.forM detachOperands
  insts.forM removeInst
  doomed.forM fun b => modifyBlock b fun d => { d with removed := true, preds := [] }
  modify fun f => { f with layout := f.layout.filter fun b => !doomed.contains b }

/-- Exchanges the terminator of a block. The predecessor lists are left to the caller. -/
def replaceTerminator (b : BlockId) (kind : InstKind) (operands : List ValueId) : Edit InstId := do
  let old ← ask (·.terminator b)
  removeInst old
  let i ← createInst kind operands false
  pushBack b i
  return i

/-- Makes the first arm of an instruction that leads to `source` lead to `target`, and tells
whether there was one. -/
def redirectTarget (i : InstId) (source target : BlockId) : Edit Bool := do
  match ((← get).kind i).redirect? source target with
  | some kind =>
    modifyInst i fun d => { d with kind }
    return true
  | none => return false

/-- Adds a predecessor at the end of a block's list. -/
def addPred (b pred : BlockId) : Edit Unit :=
  modifyBlock b fun d => { d with preds := d.preds ++ [pred] }

/-- Removes a predecessor together with its slot in every phi of the block. -/
def removePredAt (b : BlockId) (idx : Nat) : Edit Unit := do
  ((← get).phis b).forM fun phi => removeOperand phi idx
  if idx < ((← get).preds b).length then
    modifyBlock b fun d => { d with preds := d.preds.eraseIdx idx }
  else crash

/-- Notes that the function calls another one. -/
def addCallee (callee : FuncId) : Edit Unit :=
  modify fun f => { f with callees := f.callees.insert callee }

end Edit

end SsaCompiler
