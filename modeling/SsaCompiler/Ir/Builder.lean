import SsaCompiler.Ir.Module

/-!
# Building functions

A builder is a place in a module: a function and the block to which instructions are appended.
Jumps and branches also enter the block into the predecessor lists of their targets, so a phi that
is created afterwards finds its predecessors in the order of the edges.
-/

set_option autoImplicit false

namespace SsaCompiler

/-- A text cut at every occurrence of the argument mark `%d`, the mark left out. -/
def splitFormat : List Char → List (List Char)
  | '%' :: 'd' :: rest => [] :: splitFormat rest
  | c :: rest =>
    match splitFormat rest with
    | chunk :: chunks => (c :: chunk) :: chunks
    | [] => [[c]]
  | [] => [[]]

/-- The place where instructions are appended. -/
structure Builder where
  func : FuncId
  block : Option BlockId
  deriving Repr, DecidableEq

namespace Builder

/-- Changes the function under construction. -/
def edit {α : Type} (b : Builder) (e : Edit α) : ModuleEdit α := ModuleEdit.editFunction b.func e

/-- The block under construction, which must be set. -/
def current (b : Builder) : ModuleEdit BlockId :=
  match b.block with
  | some block => pure block
  | none => ModuleEdit.crash (some "builder has no current block")

/-- Appends an instruction. -/
def emit (b : Builder) (kind : InstKind) (operands : List ValueId) (hasResult : Bool) :
    ModuleEdit InstId := do
  let block ← b.current
  b.edit do
    let i ← Edit.createInst kind operands hasResult
    Edit.pushBack block i
    return i

/-- Appends an instruction and gives its result, if it has one. -/
def emitResult (b : Builder) (kind : InstKind) (operands : List ValueId) (hasResult : Bool) :
    ModuleEdit (Option ValueId) := do
  let i ← b.emit kind operands hasResult
  return ((← get).function b.func).result? i

/-- Appends an instruction that has a result, and gives the result. -/
def emitValue (b : Builder) (kind : InstKind) (operands : List ValueId) : ModuleEdit ValueId := do
  match ← b.emitResult kind operands true with
  | some v => pure v
  | none => ModuleEdit.crash (some "value-producing instruction without result")

/-- The value of a parameter. -/
def param (b : Builder) (index : Nat) : ModuleEdit ValueId := do
  match ((← get).function b.func).params[index]? with
  | some v => pure v
  | none => ModuleEdit.crash none

/-- The value of a global's address, if the module has a global of that name. -/
def global (b : Builder) (name : String) : ModuleEdit (Option ValueId) := do
  match (← get).globalByName? name with
  | some g => some <$> b.edit (Edit.globalValue g)
  | none => return none

/-- The value of a string's address, if the module has a string of that name. -/
def string (b : Builder) (name : String) : ModuleEdit (Option ValueId) := do
  match (← get).stringByName? name with
  | some s => some <$> b.edit (Edit.stringValue s)
  | none => return none

/-- Appends a call of a function of the module. -/
def call (b : Builder) (callee : FuncId) (args : List ValueId) : ModuleEdit (Option ValueId) := do
  let returns := ((← get).function callee).returnsValue
  b.edit (Edit.addCallee callee)
  b.emitResult (.call (.func callee)) args returns

/-- Appends a call of a builtin. -/
def callBuiltin (b : Builder) (callee : Builtin) (args : List ValueId) :
    ModuleEdit (Option ValueId) :=
  b.emitResult (.call (.builtin callee)) args callee.returnsValue

/-- The pieces of a format that was cut at its argument marks: chunks become string constants, and
between two chunks stands an argument. -/
def formatPieces : List (List Char) → ModuleEdit (List PrintPiece)
  | [] => pure []
  | chunk :: rest => do
    let head ← if chunk.isEmpty then pure []
      else
        let s ← ModuleEdit.addString (String.ofList ('"' :: chunk ++ ['"']))
        pure [PrintPiece.str s]
    let tail ← formatPieces rest
    return head ++ (if rest.isEmpty then [] else [PrintPiece.arg]) ++ tail

/-- Appends a print of a format literal. -/
def print (b : Builder) (format : String) (args : List ValueId) : ModuleEdit InstId := do
  let pieces ← formatPieces (splitFormat (StringConst.strip format.toList))
  b.emit (.print pieces) args false

/-- Appends a jump. -/
def jump (b : Builder) (target : BlockId) : ModuleEdit InstId := do
  let source ← b.current
  let i ← b.emit (.jump target) [] false
  b.edit (Edit.addPred target source)
  return i

/-- Appends a conditional branch. -/
def branch (b : Builder) (cond : ValueId) (thenBlock elseBlock : BlockId) : ModuleEdit InstId := do
  let source ← b.current
  let i ← b.emit (.branch thenBlock elseBlock) [cond] false
  b.edit do
    Edit.addPred thenBlock source
    Edit.addPred elseBlock source
  return i

/-- Appends a return. -/
def ret (b : Builder) (value : Option ValueId) : ModuleEdit InstId := b.emit .ret value.toList false

/-- Creates a phi behind the phis of a block with one slot per predecessor, each with the value
that is given for the predecessor first. Nothing is created unless all predecessors are given. -/
def phi (b : Builder) (block : BlockId) (incoming : List (BlockId × ValueId)) :
    ModuleEdit (Option ValueId) := do
  let f := (← get).function b.func
  match (f.preds block).mapM fun p => incoming.lookup p with
  | none => return none
  | some operands =>
    b.edit do
      let i ← Edit.createInst .phi operands true
      Edit.insertPhi block i
      return (← get).result? i

/-- Creates a phi without slots behind the phis of a block. -/
def emptyPhi (b : Builder) (block : BlockId) : ModuleEdit (InstId × ValueId) :=
  b.edit do
    let i ← Edit.createInst .phi [] true
    Edit.insertPhi block i
    let v ← Edit.ask (·.resultOf i)
    return (i, v)

end Builder

end SsaCompiler
