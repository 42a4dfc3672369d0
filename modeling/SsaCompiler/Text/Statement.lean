import SsaCompiler.Ir.Operator
import SsaCompiler.Text.Lexer

/-!
# Statements of module text

A statement is one line of a block, with names in place of values and blocks. A line reader takes
tokens from the front of a line.
-/

set_option autoImplicit false

namespace SsaCompiler

/-- An operand as it is written. -/
inductive SourceOperand
  | localName (name : String)
  | symbol (name : String)
  | int (c : Word)
  deriving DecidableEq, Repr

/-- An operation as it is written. -/
inductive SourceOp
  | binary (op : BinaryOp) (l r : SourceOperand)
  | alloca (words : Nat)
  | load (base index : SourceOperand)
  | store (base index data : SourceOperand)
  | gep (base index : SourceOperand) (multiplier : Word)
  | call (callee : String) (args : List SourceOperand)
  | print (format : String) (args : List SourceOperand)
  | phi (pairs : List (String × SourceOperand))
  | jump (target : String)
  | branch (cond : SourceOperand) (thenBlock elseBlock : String)
  | ret (value : Option SourceOperand)
  deriving DecidableEq, Repr

namespace SourceOp

/-- The operands that are read. -/
def operands : SourceOp → List SourceOperand
  | binary _ l r => [l, r]
  | alloca _ | jump _ => []
  | load base index => [base, index]
  | store base index data => [base, index, data]
  | gep base index _ => [base, index]
  | call _ args | print _ args => args
  | phi pairs => pairs.map (·.2)
  | branch cond _ _ => [cond]
  | ret value => value.toList

/-- Whether the operation ends a block. -/
def isTerminator : SourceOp → Bool
  | jump _ | branch .. | ret _ => true
  | _ => false

/-- Whether the operation is a phi. -/
def isPhi : SourceOp → Bool
  | phi _ => true
  | _ => false

/-- Whether the operation always has a result. -/
def producesValue : SourceOp → Bool
  | binary .. | alloca _ | load .. | gep .. | phi _ => true
  | _ => false

/-- Whether the operation is a call, which may have a result. -/
def isCall : SourceOp → Bool
  | call .. => true
  | _ => false

end SourceOp

/-- A line of a block. -/
structure Statement where
  line : Nat
  /-- The name of the result. -/
  result : Option String
  op : SourceOp
  deriving Repr

/-- Takes tokens from the front of a line. -/
abbrev LineReader := StateT (List Token) (Except TextFault)

namespace LineReader

/-- Takes the next token. -/
def next? : LineReader (Option Token) := modifyGet fun
  | t :: rest => (some t, rest)
  | [] => (none, [])

/-- Takes a separator if it is next, and tells whether it was. -/
def eat (c : Char) : LineReader Bool := modifyGet fun
  | t :: rest => if t = .punct c then (true, rest) else (false, t :: rest)
  | [] => (false, [])

/-- Takes a separator that must be next. -/
def expect (c : Char) : LineReader Unit := do
  if ← eat c then pure () else throw (.expectedPunct c)

/-- Takes a bare word. -/
def ident : LineReader String := do
  match ← next? with
  | some (.ident s) => return s
  | _ => throw .expectedIdentifier

/-- Takes a value name. -/
def localName : LineReader String := do
  match ← next? with
  | some (.localName s) => return s
  | _ => throw .expectedValue

/-- Takes a symbol. -/
def symbol : LineReader String := do
  match ← next? with
  | some (.symbol s) => return s
  | _ => throw .expectedSymbol

/-- Takes a block name. -/
def block : LineReader String := do
  match ← next? with
  | some (.block s) => return s
  | _ => throw .expectedBlock

/-- Takes a string literal. -/
def string : LineReader String := do
  match ← next? with
  | some (.str s) => return s
  | _ => throw .expectedString

/-- A number that must fit a word. -/
def wordOf (n : Int) : Except TextFault Word :=
  match Word.ofInt? n with
  | some c => return c
  | none => throw (.integerTooWide n)

/-- Takes a number. -/
def int : LineReader Word := do
  match ← next? with
  | some (.int n) => wordOf n
  | _ => throw .expectedInteger

/-- The operand that a token is. -/
def operandOf : Option Token → Except TextFault SourceOperand
  | some (.localName s) => return .localName s
  | some (.symbol s) => return .symbol s
  | some (.int n) => return .int (← wordOf n)
  | _ => throw .expectedOperand

/-- Takes an operand. -/
def operand : LineReader SourceOperand := do operandOf (← next?)

/-- The line must be used up. -/
def finish : LineReader Unit := do
  match ← get with
  | t :: _ => throw (.trailingInput t)
  | [] => pure ()

/-- Takes operands, separated by commas, up to the closing parenthesis. -/
def operandsToClose : List Token → Except TextFault (List SourceOperand × List Token)
  | t :: .punct ')' :: rest => return ([← operandOf t], rest)
  | t :: .punct ',' :: rest => do
    let v ← operandOf t
    let (vs, rest) ← operandsToClose rest
    return (v :: vs, rest)
  | [] => throw .expectedOperand
  | t :: _ => do
    let _ ← operandOf t
    throw (.expectedPunct ',')

/-- Takes the arguments of a call in parentheses. -/
def arguments : LineReader (List SourceOperand) := do
  expect '('
  if ← eat ')' then return []
  operandsToClose

/-- Takes operands as long as a comma is next. -/
def moreOperands : List Token → Except TextFault (List SourceOperand × List Token)
  | .punct ',' :: t :: rest => do
    let v ← operandOf t
    let (vs, rest) ← moreOperands rest
    return (v :: vs, rest)
  | [.punct ','] => throw .expectedOperand
  | rest => return ([], rest)

/-- Takes numbers as long as a comma is next. -/
def moreInts : List Token → Except TextFault (List Word × List Token)
  | .punct ',' :: .int n :: rest => do
    let c ← wordOf n
    let (cs, rest) ← moreInts rest
    return (c :: cs, rest)
  | .punct ',' :: _ => throw .expectedInteger
  | rest => return ([], rest)

/-- Takes one incoming pair of a phi. -/
def phiPair : LineReader (String × SourceOperand) := do
  expect '['
  let source ← block
  expect ','
  let value ← operand
  expect ']'
  return (source, value)

/-- Takes phi pairs, separated by commas; a line has fewer than `limit` pairs when `limit` exceeds its tokens. -/
def phiPairs : (limit : Nat) → LineReader (List (String × SourceOperand))
  | 0 => return []
  | limit + 1 => do
    let pair ← phiPair
    if ← eat ',' then return pair :: (← phiPairs limit) else return [pair]

/-- Takes parameters, separated by commas, up to the closing parenthesis. -/
def paramsToClose (seen : List String) : List Token → Except TextFault (List String × List Token)
  | .localName p :: rest => do
    if seen.contains p then throw (.duplicateParameter p)
    match rest with
    | .punct ')' :: rest => return (seen ++ [p], rest)
    | .punct ',' :: rest => paramsToClose (seen ++ [p]) rest
    | _ => throw (.expectedPunct ',')
  | _ => throw .expectedValue

/-- The number of argument marks in a format. -/
def countMarks : List Char → Nat
  | '%' :: 'd' :: rest => countMarks rest + 1
  | _ :: rest => countMarks rest
  | [] => 0

/-- Takes the operands of an operation. -/
def operation (opcode : String) : LineReader SourceOp := do
  match opcode with
  | "alloca" =>
    expect '['
    let n ← int
    expect ']'
    if n < 1 then throw .emptyAlloca
    return .alloca n.toInt.toNat
  | "load" =>
    let base ← operand
    expect ','
    return .load base (← operand)
  | "store" =>
    let base ← operand
    expect ','
    let index ← operand
    expect ','
    return .store base index (← operand)
  | "gep" =>
    let base ← operand
    expect ','
    let index ← operand
    expect ','
    return .gep base index (← int)
  | "call" =>
    let callee ← symbol
    return .call callee (← arguments)
  | "print" =>
    let format ← string
    let args ← moreOperands
    let marks := countMarks format.toList
    if marks ≠ args.length then throw (.formatArity format marks args.length)
    return .print format args
  | "phi" => return .phi (← phiPairs ((← get).length + 1))
  | "jump" => return .jump (← block)
  | "br" =>
    let cond ← operand
    expect ','
    let thenBlock ← block
    expect ','
    return .branch cond thenBlock (← block)
  | "ret" =>
    if (← get).isEmpty then return .ret none
    return .ret (some (← operand))
  | _ =>
    match BinaryOp.ofMnemonic? opcode with
    | some op =>
      let l ← operand
      expect ','
      return .binary op l (← operand)
    | none => throw (.unknownInstruction opcode)

/-- Takes the result name and the equals sign at the front of a line, if they are there. -/
def resultName : LineReader (Option String) := modifyGet fun
  | .localName name :: .punct '=' :: rest => (some name, rest)
  | tokens => (none, tokens)

/-- Takes a whole statement. -/
def statement (line : Nat) : LineReader Statement := do
  let result ← resultName
  let opcode ← ident
  let op ← operation opcode
  finish
  match result with
  | none => if op.producesValue then throw (.missingResultName opcode)
  | some name =>
    if !op.producesValue && !op.isCall then throw (.unexpectedResultName opcode name)
  return { line, result, op }

end LineReader

end SsaCompiler
