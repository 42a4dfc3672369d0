import SsaCompiler.Text.Fault

/-!
# Failures

A computation of the compiler fails in one of two ways. It *reports* a compile error, which names
the function and the cause; or it *crashes* on a broken promise of its caller: an index that is
out of range, word arithmetic that leaves the word range, or an editing step that is not allowed.
-/

set_option autoImplicit false

namespace SsaCompiler

/-- A structural rule of functions or machine code that does not hold. -/
inductive Violation
  | noBlocks
  | entryHasPredecessors (entry : String)
  | latePhi (block : String)
  | staleBackReference (inst : Nat)
  | useListCount (value : String) (inst slot hits : Nat)
  | targetsRemovedBlock (block : String)
  | predecessorMismatch (block : String) (actual expected : List Nat)
  | noImmediateDominator (block : String)
  | missingPredecessor (block target : String)
  | missingJumpPredecessor (block : String)
  | edgelessPredecessor (block pred : String)
  | selfFeedingPhi (block : String)
  | noResult (inst : Nat)
  | fusedNonCompare
  | noMachineOperator (operator : String)
  | notACompare (operator : String)
  | printArity
  | phiWithoutResult
  | conflictingPhiValues (block pred : String)
  | uncoloured (node : String)
  | unassigned (operand : String)
  | unallocated (inst : String)
  deriving DecidableEq, Repr

namespace Violation

/-- A list of block numbers as diagnostics write it. -/
def blockList (blocks : List Nat) : String :=
  "[" ++ ", ".intercalate (blocks.map fun b => s!"BlockId({b})") ++ "]"

/-- The wording of a violation. -/
def message : Violation → String
  | noBlocks => "function has no blocks"
  | entryHasPredecessors entry => s!"entry block {entry} has predecessors"
  | latePhi block => s!"phi after non-phi in block {block}"
  | staleBackReference inst => s!"inst {inst} has a stale block back-reference"
  | useListCount value inst slot hits =>
    s!"use-list of {value} lists inst {inst} slot {slot} {hits} times"
  | targetsRemovedBlock block => s!"block {block} targets a removed block"
  | predecessorMismatch block actual expected =>
    s!"predecessors of {block} are {blockList actual} but edges say {blockList expected}"
  | noImmediateDominator block => s!"no immediate dominator for {block}"
  | missingPredecessor block target => s!"{block} is not listed as predecessor of {target}"
  | missingJumpPredecessor block => s!"{block} missing from preds of its jump target"
  | edgelessPredecessor block pred => s!"{block} lists {pred} as predecessor without an edge"
  | selfFeedingPhi block => s!"phi in {block} only feeds itself"
  | noResult inst => s!"inst {inst} has no result"
  | fusedNonCompare => "fused non-compare"
  | noMachineOperator operator => s!"no machine op for {operator}"
  | notACompare operator => s!"{operator} is not a compare"
  | printArity => "print has fewer arguments than placeholders"
  | phiWithoutResult => "phi without result"
  | conflictingPhiValues block pred =>
    s!"phi in {block} takes two values along the edge from {pred}"
  | uncoloured node => s!"{node} left without a color"
  | unassigned operand => s!"{operand} has no register"
  | unallocated inst => s!"frame finalize before allocation: {inst}"

end Violation

/-- Why registers cannot be allocated. -/
inductive AllocationFault
  | emptyBudget
  | uncolourableTemporary (node : String) (registers : Nat)
  deriving DecidableEq, Repr

namespace AllocationFault

/-- The wording of an allocation fault. -/
def message : AllocationFault → String
  | emptyBudget => "empty register budget"
  | uncolourableTemporary node registers =>
    s!"spill temporary {node} cannot be colored with {registers} registers"

end AllocationFault

/-- The iterative computations that work under a limit of rounds. -/
inductive Analysis
  | dominators
  | liveness
  | allocation
  deriving DecidableEq, Repr

namespace Analysis

/-- The name of an analysis in diagnostics. -/
def name : Analysis → String
  | dominators => "dominators"
  | liveness => "liveness"
  | allocation => "register allocation"

end Analysis

/-- An error that the compiler reports. -/
inductive CompileError
  /-- A block does not end in a terminator. -/
  | missingTerminator (function block : String)
  /-- A phi has another number of slots than its block has predecessors. -/
  | phiArity (function block : String) (slots preds : Nat)
  /-- A value is read although it is removed, or removed although it is read. -/
  | danglingUse (function value user : String)
  | invariant (function : String) (violation : Violation)
  /-- An analysis did not settle within its limit. -/
  | nonConvergence (function : String) (analysis : Analysis) (rounds : Nat)
  | registerAllocation (function : String) (fault : AllocationFault)
  /-- Module text is malformed at a line. -/
  | parse (line : Nat) (fault : TextFault)
  /-- Reading or writing failed outside the compiler. -/
  | io (reason : String)
  deriving DecidableEq, Repr

namespace CompileError

/-- The text shown for an error. -/
def message : CompileError → String
  | missingTerminator function block =>
    s!"{function}: block {block} has no terminator in last position"
  | phiArity function block slots preds =>
    s!"{function}: phi in block {block} has {slots} incoming slots but {preds} predecessors"
  | danglingUse function value user => s!"{function}: dangling use of {value} by {user}"
  | invariant function violation => s!"{function}: invariant violated: {violation.message}"
  | nonConvergence function analysis rounds =>
    s!"{function}: {analysis.name} did not converge after {rounds} rounds"
  | registerAllocation function fault =>
    s!"{function}: register allocation failed: {fault.message}"
  | parse line fault => s!"parse error at line {line}: {fault.message}"
  | io reason => reason

end CompileError

/-- How a computation ends without a result. -/
inductive Failure
  /-- An error is reported. -/
  | error (cause : CompileError)
  /-- A promise of the caller is broken; some promises come with a text of their own. -/
  | crash (text : Option String)
  deriving DecidableEq, Repr

/-- A computation that may fail. -/
abbrev Outcome := Except Failure

namespace Outcome

/-- The outcome of a crash without text. -/
def crash {α : Type} : Outcome α := .error (.crash none)

/-- A present value, or a crash without text. -/
def ofOption {α : Type} : Option α → Outcome α
  | some a => .ok a
  | none => crash

/-- The outcome that reports an error. -/
def report {α : Type} (cause : CompileError) : Outcome α := .error (.error cause)

end Outcome

end SsaCompiler
