import SsaCompiler.Ir.Builder
import SsaCompiler.Text.Source

/-!
# Reading modules

The second step of reading a module: every body is built. Inside a function the blocks are built in
textual order as soon as everything they read is defined; phis stand first in their blocks from the
start and get their operands at the end, in predecessor order. So values, blocks and functions may
be named before the line that defines them.
-/

set_option autoImplicit false

namespace SsaCompiler

/-- The state of reading bodies: the module, and the values of the function under construction by
name, latest first. -/
structure Reading where
  module : Module
  values : List (String × ValueId) := []
  deriving Inhabited

/-- A step of reading bodies. -/
abbrev Reader := StateT Reading Outcome

namespace Reader

/-- Ends with a fault at a line. -/
def fault {α : Type} (line : Nat) (f : TextFault) : Reader α := StateT.lift (faultAt line f)

/-- Changes the module. -/
def change {α : Type} (edit : ModuleEdit α) : Reader α := do
  let (result, m) := edit.run (← get).module
  modify fun r => { r with module := m }
  match result with
  | .ok a => pure a
  | .error e => throw e

/-- Gives a value its name, which must be new in the function. -/
def define (b : Builder) (line : Nat) (name : String) (v : ValueId) : Reader Unit := do
  change (b.edit (Edit.setValueName v name))
  if ((← get).values.lookup name).isSome then fault line (.redefinedValue name)
  modify fun r => { r with values := (name, v) :: r.values }

/-- The value of an operand. -/
def value (b : Builder) (line : Nat) : SourceOperand → Reader ValueId
  | .int c => change (b.edit (Edit.constValue c))
  | .localName name => do
    match (← get).values.lookup name with
    | some v => pure v
    | none => fault line (.undefinedValue name)
  | .symbol name => do
    match ← change (b.global name) with
    | some v => pure v
    | none =>
      match ← change (b.string name) with
      | some v => pure v
      | none => fault line (.unknownSymbol name)

/-- The block of a name. -/
def blockNamed (blocks : List (String × BlockId)) (line : Nat) (name : String) : Reader BlockId :=
  match blocks.lookup name with
  | some b => pure b
  | none => fault line (.unknownBlock name)

/-- Builds a call. -/
def buildCall (b : Builder) (line : Nat) (named : Bool) (callee : String)
    (args : List SourceOperand) : Reader (Option ValueId) := do
  let values ← args.mapM (value b line)
  let m := (← get).module
  let check (arity : Nat) (returns : Bool) : Reader Unit := do
    if arity ≠ values.length then fault line (.callArity callee arity values.length)
    if named && !returns then fault line (.voidCallResult callee)
  match Builtin.ofName? callee with
  | some builtin =>
    check builtin.paramCount builtin.returnsValue
    change (b.callBuiltin builtin values)
  | none =>
    match m.functionByName? callee with
    | some id =>
      check (m.function id).params.length (m.function id).returnsValue
      change (b.call id values)
    | none => fault line (.unknownCallee callee)

/-- Builds an operation and gives its result. -/
def buildOp (b : Builder) (blocks : List (String × BlockId)) (line : Nat) (named : Bool) :
    SourceOp → Reader (Option ValueId)
  | .binary op l r => do
    let l ← value b line l
    let r ← value b line r
    some <$> change (b.emitValue (.binary op) [l, r])
  | .alloca words => some <$> change (b.emitValue (.alloca words) [])
  | .load base index => do
    let base ← value b line base
    let index ← value b line index
    some <$> change (b.emitValue .load [base, index])
  | .store base index data => do
    let base ← value b line base
    let index ← value b line index
    let data ← value b line data
    let _ ← change (b.emit .store [base, index, data] false)
    return none
  | .gep base index multiplier => do
    let base ← value b line base
    let index ← value b line index
    some <$> change (b.emitValue (.gep multiplier) [base, index])
  | .call callee args => buildCall b line named callee args
  | .print format args => do
    let values ← args.mapM (value b line)
    let _ ← change (b.print format values)
    return none
  | .jump target => do
    let target ← blockNamed blocks line target
    let _ ← change (b.jump target)
    return none
  | .branch cond thenBlock elseBlock => do
    let cond ← value b line cond
    let thenBlock ← blockNamed blocks line thenBlock
    let elseBlock ← blockNamed blocks line elseBlock
    let _ ← change (b.branch cond thenBlock elseBlock)
    return none
  | .ret given => do
    let returns := ((← get).module.function b.func).returnsValue
    let v ← match given, returns with
      | some v, true => some <$> value b line v
      | none, false => pure none
      | some _, false => fault line .voidReturnsValue
      | none, true => fault line .missingReturnValue
    let _ ← change (b.ret v)
    return none
  | .phi _ => return none

/-- Builds a statement and names its result. -/
def buildStatement (b : Builder) (blocks : List (String × BlockId)) (s : Statement) :
    Reader Unit := do
  let result ← buildOp b blocks s.line s.result.isSome s.op
  match s.result, result with
  | some name, some v => define b s.line name v
  | _, _ => pure ()

/-- The first operand of the statements, phis left out, that names a value which is neither among
`known` nor the result of an earlier statement; with its line. -/
def unknownOperand? (known : List String) : List Statement → Option (Nat × String)
  | [] => none
  | s :: rest =>
    if s.op.isPhi then unknownOperand? known rest
    else
      let missing := s.op.operands.findSome? fun
        | .localName name => if known.contains name then none else some name
        | _ => none
      match missing with
      | some name => some (s.line, name)
      | none => unknownOperand? (s.result.toList ++ known) rest

/-- Builds blocks in order, always the first one that reads only defined values, until none is left
or none can be built; gives the blocks left. Each of at most `limit` steps builds one. -/
def buildReady (func : FuncId) (blocks : List (String × BlockId)) :
    (limit : Nat) → List (BlockSource × BlockId) → Reader (List (BlockSource × BlockId))
  | 0, pending => return pending
  | limit + 1, pending => do
    let known := (← get).values.map (·.1)
    match pending.findIdx? fun p => (unknownOperand? known p.1.statements).isNone with
    | none => return pending
    | some k =>
      match pending[k]? with
      | none => return pending
      | some (source, id) =>
        (source.statements.filter fun s => !s.op.isPhi).forM
          (buildStatement { func, block := some id } blocks)
        buildReady func blocks limit (pending.eraseIdx k)

/-- Creates the blocks of a function. -/
def createBlocks (b : Builder) : List BlockSource → List (String × BlockId) →
    Reader (List (String × BlockId))
  | [], created => return created
  | source :: rest, created => do
    if (created.lookup source.name).isSome then fault source.line (.redefinedBlock source.name)
    let id ← change (b.edit (Edit.createBlock source.name))
    createBlocks b rest (created ++ [(source.name, id)])

/-- Creates the phi of a statement without its operands. -/
def createPhi (b : Builder) (block : BlockId) (s : Statement) : Reader InstId := do
  let (phi, v) ← change (b.emptyPhi block)
  match s.result with
  | some name => define b s.line name v
  | none => pure ()
  return phi

/-- The blocks and values of the pairs of a phi; each block must be a predecessor. -/
def incomingPairs (b : Builder) (blocks : List (String × BlockId)) (line : Nat) (block : BlockId) :
    List (String × SourceOperand) → Reader (List (BlockId × ValueId))
  | [] => return []
  | (name, operand) :: rest => do
    let source ← blockNamed blocks line name
    let f := (← get).module.function b.func
    if !(f.preds block).contains source then
      fault line (.notAPredecessor name (f.blockName block))
    let v ← value b line operand
    return (source, v) :: (← incomingPairs b blocks line block rest)

/-- Gives a phi its operands, one per predecessor of its block. -/
def fillPhi (b : Builder) (blocks : List (String × BlockId)) (block : BlockId) (phi : InstId)
    (s : Statement) : Reader Unit := do
  match s.op with
  | .phi pairs =>
    let incoming ← incomingPairs b blocks s.line block pairs
    let f := (← get).module.function b.func
    (f.preds block).forM fun pred =>
      match incoming.lookup pred with
      | some v => change (b.edit (Edit.pushOperand phi v))
      | none => fault s.line (.missingIncoming (f.blockName pred))
  | _ => pure ()

/-- Names the parameters of a function. -/
def defineParams (b : Builder) (line : Nat) (params : List String) : Reader Unit :=
  params.zipIdx.forM fun (name, i) => do
    let v ← change (b.param i)
    define b line name v

/-- Builds the body of a function but for the operands of its phis. Gives the blocks by name, and the phis with their
blocks and statements. -/
def openBody (source : FunctionSource) : Reader (List (String × BlockId) × List (BlockId × InstId × Statement)) := do
  let b : Builder := { func := source.id, block := none }
  modify fun r => { r with values := [] }
  defineParams b source.line source.params
  let blocks ← createBlocks b source.blocks []
  let pending := source.blocks.zip (blocks.map (·.2))
  let phis ← pending.mapM fun (block, id) =>
    (block.statements.filter fun s => s.op.isPhi).mapM fun s => do
      return (id, ← createPhi b id s, s)
  let left ← buildReady source.id blocks pending.length pending
  match left.head? with
  | some (block, _) =>
    match unknownOperand? ((← get).values.map (·.1)) block.statements with
    | some (line, name) => fault line (.undefinedValue name)
    | none => fault block.line (.unreadableBlock block.name)
  | none => return (blocks, phis.flatten)

/-- Builds the body of a function. -/
def buildFunction (source : FunctionSource) : Reader Unit := do
  let (blocks, phis) ← openBody source
  phis.forM fun e => fillPhi { func := source.id, block := none } blocks e.1 e.2.1 e.2.2

end Reader

/-- The module that a text describes. -/
def Module.parse (text : String) : Outcome Module := do
  let lines ← Source.tokenLines text
  let (m, sources) ← Source.declarations {} lines
  let (_, reading) ← (sources.forM Reader.buildFunction).run { module := m }
  return reading.module

end SsaCompiler
