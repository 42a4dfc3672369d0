import SsaCompiler.Text.Quoted

/-!
# Faults of module text

Everything that can be wrong with a line of module text, by cause, and the wording of each cause.
-/

set_option autoImplicit false

namespace SsaCompiler

/-- Why a line of module text is refused. -/
inductive TextFault
  /-- A sigil is not followed by a name. -/
  | missingName (sigil : Char)
  | unterminatedString
  | invalidInteger (literal : String)
  | unexpectedCharacter (c : Char)
  | expectedPunct (c : Char)
  | expectedIdentifier
  | expectedValue
  | expectedSymbol
  | expectedBlock
  | expectedString
  | expectedInteger
  | expectedOperand
  | integerTooWide (value : Int)
  | trailingInput (token : Token)
  | expectedDeclaration (found : String)
  | redefinedSymbol (name : String)
  | emptyArray (name : String)
  | tooManyInitializers (name : String) (given words : Nat)
  | constantWithoutValue (name : String)
  | redefinedFunction (name : String)
  | duplicateParameter (name : String)
  | expectedReturnType
  | unknownReturnType (name : String)
  | unclosedFunction (name : String)
  | outsideBlock
  | afterTerminator (block : String)
  | latePhi
  | functionWithoutBlocks (name : String)
  | blockWithoutTerminator (name : String)
  | emptyAlloca
  | formatArity (format : String) (expected given : Nat)
  | unknownInstruction (name : String)
  | missingResultName (instruction : String)
  | unexpectedResultName (instruction name : String)
  | redefinedValue (name : String)
  | unknownBlock (name : String)
  | undefinedValue (name : String)
  | unknownSymbol (name : String)
  | redefinedBlock (name : String)
  | notAPredecessor (name block : String)
  | missingIncoming (pred : String)
  | unreadableBlock (name : String)
  | unknownCallee (name : String)
  | callArity (name : String) (expected given : Nat)
  | voidCallResult (name : String)
  | voidReturnsValue
  | missingReturnValue
  deriving DecidableEq, Repr

namespace TextFault

/-- The wording of a fault. -/
def message : TextFault → String
  | missingName sigil => s!"expected a name after '{sigil}'"
  | unterminatedString => "unterminated string literal"
  | invalidInteger literal => s!"invalid integer '{literal}'"
  | unexpectedCharacter c => s!"unexpected character '{c}'"
  | expectedPunct c => s!"expected '{c}'"
  | expectedIdentifier => "expected an identifier"
  | expectedValue => "expected a %value"
  | expectedSymbol => "expected an @symbol"
  | expectedBlock => "expected a ^block"
  | expectedString => "expected a string literal"
  | expectedInteger => "expected an integer"
  | expectedOperand => "expected an operand"
  | integerTooWide value => s!"integer {value} does not fit in 32 bits"
  | trailingInput token => s!"unexpected trailing input {token.describe}"
  | expectedDeclaration found => s!"expected a declaration, found '{found}'"
  | redefinedSymbol name => s!"redefinition of @{name}"
  | emptyArray name => s!"array @{name} needs at least one element"
  | tooManyInitializers name given words => s!"@{name} has {given} initializers for {words} words"
  | constantWithoutValue name => s!"constant @{name} needs a value"
  | redefinedFunction name => s!"redefinition of function @{name}"
  | duplicateParameter name => s!"duplicate parameter %{name}"
  | expectedReturnType => "expected '->' and a return type"
  | unknownReturnType name => s!"unknown return type '{name}'"
  | unclosedFunction name => s!"function @{name} is not closed"
  | outsideBlock => "instruction outside of a block"
  | afterTerminator block => s!"instruction after the terminator of ^{block}"
  | latePhi => "phi after a non-phi instruction"
  | functionWithoutBlocks name => s!"function @{name} has no blocks"
  | blockWithoutTerminator name => s!"block ^{name} has no terminator"
  | emptyAlloca => "alloca needs at least one word"
  | formatArity format expected given =>
    s!"format {format} expects {expected} arguments, got {given}"
  | unknownInstruction name => s!"unknown instruction '{name}'"
  | missingResultName instruction => s!"'{instruction}' needs a result name"
  | unexpectedResultName instruction name =>
    s!"'{instruction}' does not produce a value for %{name}"
  | redefinedValue name => s!"redefinition of %{name}"
  | unknownBlock name => s!"unknown block ^{name}"
  | undefinedValue name => s!"undefined value %{name}"
  | unknownSymbol name => s!"unknown symbol @{name}"
  | redefinedBlock name => s!"redefinition of block ^{name}"
  | notAPredecessor name block => s!"^{name} is not a predecessor of ^{block}"
  | missingIncoming pred => s!"phi has no incoming value for ^{pred}"
  | unreadableBlock name => s!"block ^{name} reads an undefined value"
  | unknownCallee name => s!"call to unknown function @{name}"
  | callArity name expected given => s!"@{name} takes {expected} arguments, got {given}"
  | voidCallResult name => s!"@{name} does not return a value"
  | voidReturnsValue => "void function returns a value"
  | missingReturnValue => "missing return value"

end TextFault

end SsaCompiler
