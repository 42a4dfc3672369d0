import SsaCompiler.Ir.Module
import SsaCompiler.Text.Lines
import SsaCompiler.Text.Statement

/-!
# Declarations of module text

The first step of reading a module: all lines are cut into tokens, globals, strings and function
signatures are registered, and each function body is collected as blocks of statements. Bodies are
turned into functions in a second step, when all signatures are known.
-/

set_option autoImplicit false

namespace SsaCompiler

/-- A block as it is written. -/
structure BlockSource where
  name : String
  line : Nat
  statements : List Statement
  deriving Repr, Inhabited

namespace BlockSource

/-- Whether the last statement is a terminator. -/
def isTerminated (b : BlockSource) : Bool :=
  match b.statements.getLast? with
  | some s => s.op.isTerminator
  | none => false

end BlockSource

/-- A function body as it is written. -/
structure FunctionSource where
  id : FuncId
  line : Nat
  params : List String
  blocks : List BlockSource
  deriving Repr

/-- A line with its number, cut into tokens. -/
structure TokenLine where
  number : Nat
  tokens : List Token
  deriving Repr

/-- A fault at a line. -/
def faultAt {α : Type} (line : Nat) (fault : TextFault) : Outcome α :=
  Outcome.report (.parse line fault)

/-- Reads from the front of a line. -/
def LineReader.run {α : Type} (reader : LineReader α) (line : Nat) (tokens : List Token) :
    Outcome α :=
  match StateT.run reader tokens with
  | .ok (a, _) => .ok a
  | .error fault => faultAt line fault

namespace Source

/-- The lines of a text that hold tokens. -/
def tokenLines (text : String) : Outcome (List TokenLine) := do
  let scanned ← (Text.lines text).zipIdx.mapM fun (line, i) =>
    match Token.scan line.toList with
    | .ok tokens => .ok { number := i + 1, tokens : TokenLine }
    | .error fault => faultAt (i + 1) fault
  return scanned.filter fun l => !l.tokens.isEmpty

/-- A name for a global or string must be new. -/
def symbolFree (m : Module) (name : String) : LineReader Unit :=
  if (m.globalByName? name).isSome || (m.stringByName? name).isSome then
    throw (.redefinedSymbol name)
  else pure ()

/-- Reads the declaration of a global variable or constant behind its keyword. -/
def globalDecl (m : Module) (constant : Bool) : LineReader Module := do
  let name ← LineReader.symbol
  symbolFree m name
  let isArray ← LineReader.eat '['
  let words ← if isArray then
      let n ← LineReader.int
      if n < 1 then throw (.emptyArray name)
      LineReader.expect ']'
      pure n.toInt.toNat
    else pure 1
  let init ← if ← LineReader.eat '=' then
      let first ← LineReader.int
      let more ← LineReader.moreInts
      pure (first :: more)
    else pure []
  LineReader.finish
  if words < init.length then throw (.tooManyInitializers name init.length words)
  if !isArray && constant && init.isEmpty then throw (.constantWithoutValue name)
  return (m.addGlobal name words init constant).2

/-- Reads the declaration of a string behind its keyword. -/
def stringDecl (m : Module) : LineReader Module := do
  let name ← LineReader.symbol
  symbolFree m name
  LineReader.expect '='
  let literal ← LineReader.string
  LineReader.finish
  return (m.addNamedString name literal).2

/-- The heading of a function. -/
structure Signature where
  name : String
  params : List String
  returnsValue : Bool
  deriving Repr

/-- Reads the heading of a function behind its keyword. -/
def signature (m : Module) : LineReader Signature := do
  let name ← LineReader.symbol
  if (m.functionByName? name).isSome || (Builtin.ofName? name).isSome then
    throw (.redefinedFunction name)
  LineReader.expect '('
  let params ← if ← LineReader.eat ')' then pure [] else LineReader.paramsToClose []
  match ← LineReader.next? with
  | some .arrow => pure ()
  | _ => throw .expectedReturnType
  let returnsValue ← match ← LineReader.ident with
    | "int" => pure true
    | "void" => pure false
    | other => throw (.unknownReturnType other)
  LineReader.expect '\x7b'
  LineReader.finish
  return { name, params, returnsValue }

/-- Enters one line of a body, a label or a statement, into the blocks read so far. -/
def bodyLine (blocks : List BlockSource) (l : TokenLine) : Outcome (List BlockSource) :=
  match l.tokens with
  | [.ident label, .punct ':'] =>
    return blocks ++ [{ name := label, line := l.number, statements := [] }]
  | tokens => do
    let s ← (LineReader.statement l.number).run l.number tokens
    match blocks.getLast? with
    | none => faultAt l.number .outsideBlock
    | some block =>
      if block.isTerminated then faultAt l.number (.afterTerminator block.name)
      if s.op.isPhi && block.statements.any fun t => !t.op.isPhi then faultAt l.number .latePhi
      return blocks.dropLast ++ [{ block with statements := block.statements ++ [s] }]

/-- Whether a line closes a function. -/
def isClosing (l : TokenLine) : Bool := l.tokens == [.punct '\x7d']

/-- The blocks of a function from the lines of its body. `closed` tells whether the body was
closed. -/
def body (line : Nat) (name : String) (lines : List TokenLine) (closed : Bool) :
    Outcome (List BlockSource) := do
  let blocks ← lines.foldlM bodyLine []
  if !closed then faultAt line (.unclosedFunction name)
  if blocks.isEmpty then faultAt line (.functionWithoutBlocks name)
  match blocks.find? fun b => !b.isTerminated with
  | some b => faultAt b.line (.blockWithoutTerminator b.name)
  | none => return blocks

/-- Reads all declarations; the result is the module with its signatures, and the bodies. -/
def declarations (m : Module) : List TokenLine → Outcome (Module × List FunctionSource)
  | [] => return (m, [])
  | l :: rest => do
    match ← LineReader.ident.run l.number l.tokens with
    | "global" => declarations (← (globalDecl m false).run l.number l.tokens.tail) rest
    | "const" => declarations (← (globalDecl m true).run l.number l.tokens.tail) rest
    | "string" => declarations (← (stringDecl m).run l.number l.tokens.tail) rest
    | "func" =>
      let s ← (signature m).run l.number l.tokens.tail
      let (id, m) := m.addFunction (Function.new s.name s.params.length s.returnsValue)
      let inner := rest.takeWhile fun k => !isClosing k
      let blocks ← body l.number s.name inner (decide (inner.length < rest.length))
      let (m, sources) ← declarations m (rest.drop (inner.length + 1))
      return (m, { id, line := l.number, params := s.params, blocks } :: sources)
    | other => faultAt l.number (.expectedDeclaration other)
termination_by lines => lines.length

end Source

end SsaCompiler
