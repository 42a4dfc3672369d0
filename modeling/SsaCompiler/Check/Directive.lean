import SsaCompiler.Check.Fault
import SsaCompiler.Text.Blank
import SsaCompiler.Text.Lines

/-!
# Directives

A directive says what a line of output contains. The directives of a test are matched against the
lines of the output from top to bottom; a cursor stands before the first line that is not matched
yet. `Directive.validate` gives the first fault, if there is one.
-/

set_option autoImplicit false

namespace SsaCompiler

/-- What a test expects of its output. -/
inductive Directive
  /-- The pattern stands in a line from the cursor on. -/
  | check (pattern : String)
  /-- As `check`, at the start of a section. -/
  | label (pattern : String)
  /-- The pattern stands in the line at the cursor. -/
  | next (pattern : String)
  /-- The pattern is absent from the lines skipped before the next match. -/
  | absent (pattern : String)
  /-- The line at the cursor is blank, or the output has ended. -/
  | empty
  /-- A remark, which expects nothing. -/
  | comment (text : String)
  deriving DecidableEq, Repr

namespace Directive

/-- Refuses the first pattern that stands in one of the lines. -/
def allAbsent (lines : List String) : List String → Except CheckFault Unit
  | [] => .ok ()
  | pattern :: rest =>
    match lines.find? fun line => Text.contains line pattern with
    | some line => .error (.present pattern line)
    | none => allAbsent lines rest

/-- Matches directives against the lines from the cursor on. The patterns in `pending` must be
absent up to the next match. -/
def matchFrom (lines pending : List String) : List Directive → Except CheckFault Unit
  | [] => allAbsent lines pending
  | comment _ :: rest => matchFrom lines pending rest
  | absent pattern :: rest => matchFrom lines (pending ++ [pattern]) rest
  | check pattern :: rest =>
    match lines.findIdx? fun line => Text.contains line pattern with
    | none => .error (.notFound "CHECK" pattern)
    | some k => do
      allAbsent (lines.take k) pending
      matchFrom (lines.drop (k + 1)) [] rest
  | label pattern :: rest =>
    match lines.findIdx? fun line => Text.contains line pattern with
    | none => .error (.notFound "CHECK-LABEL" pattern)
    | some k => do
      allAbsent (lines.take k) pending
      matchFrom (lines.drop (k + 1)) [] rest
  | next pattern :: rest =>
    match lines with
    | [] => .error (.noNextLine pattern)
    | line :: lines =>
      if Text.contains line pattern then matchFrom lines [] rest
      else .error (.otherNextLine pattern line)
  | empty :: rest =>
    match lines with
    | [] => matchFrom [] pending rest
    | line :: lines =>
      if (Text.trim line).isEmpty then matchFrom lines pending rest else .error (.notEmpty line)

/-- Matches directives against an output. -/
def validate (output : String) (directives : List Directive) : Except CheckFault Unit :=
  matchFrom (Text.lines output) [] directives

end Directive

end SsaCompiler
