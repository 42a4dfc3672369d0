import SsaCompiler.Error

/-!
# Faults of test files

Everything that can go wrong with a test file: its own lines, the flags of its runs, the compilation
of its module, and the output that its directives do not match.
-/

set_option autoImplicit false

namespace SsaCompiler

/-- Why a test fails. -/
inductive CheckFault
  /-- A comment looks like a directive and is none. -/
  | unknownDirective (line : String)
  | noRuns
  | missingRegisterCount
  | unknownFlag (flag : String)
  /-- The module of the test does not compile. -/
  | compile (cause : CompileError)
  /-- A line contains a pattern that must be absent. -/
  | present (pattern line : String)
  /-- No line from the cursor on contains the pattern of a directive. -/
  | notFound (directive pattern : String)
  | noNextLine (pattern : String)
  /-- The line at the cursor does not contain the pattern. -/
  | otherNextLine (pattern line : String)
  | notEmpty (line : String)
  deriving DecidableEq, Repr

namespace CheckFault

/-- The wording of a fault. -/
def message : CheckFault → String
  | unknownDirective line => s!"unknown directive '{line}'"
  | noRuns => "test has no RUN line"
  | missingRegisterCount => "--regs needs a register count"
  | unknownFlag flag => s!"unknown RUN flag '{flag}'"
  | compile cause => cause.message
  | present pattern line => s!"CHECK-NOT: pattern '{pattern}' found in '{line}'"
  | notFound directive pattern => s!"{directive}: pattern '{pattern}' not found in output"
  | noNextLine pattern => s!"CHECK-NEXT: no more lines, expected '{pattern}'"
  | otherNextLine pattern line => s!"CHECK-NEXT: expected '{pattern}' but got '{line}'"
  | notEmpty line => s!"CHECK-EMPTY: expected empty line but got '{line}'"

end CheckFault

end SsaCompiler
