import SsaCompiler.Check.Directive
import SsaCompiler.Pipeline.Dump
import SsaCompiler.Text.Numeral

/-!
# Test files

A test file is module text that carries its own runs and directives in comments. Every run compiles
the whole file with the flags of its line, and the output of every run is matched against all
directives. Line numbers in errors are those of the file, since directives are comments to the
reader of modules.
-/

set_option autoImplicit false

namespace SsaCompiler

/-- A run of a test: a command, of which only the flags matter. -/
structure Run where
  command : String
  args : List String
  deriving DecidableEq, Repr

/-- How a trial of a test ends without success. -/
inductive TrialFailure
  | fault (cause : CheckFault)
  /-- The compiler crashed. -/
  | crash (text : Option String)
  deriving DecidableEq, Repr

/-- The runs and directives of a test file, and its text. -/
structure Spec where
  runs : List Run
  directives : List Directive
  source : String
  deriving DecidableEq, Repr

namespace Run

/-- Reads flags onto the options and the dumps asked for so far, latest first. -/
def configureFrom (o : Options) (dumps : List Dump) :
    List String → Except CheckFault (Options × List Dump)
  | [] => .ok (o, dumps.reverse)
  | "--no-opt" :: rest => configureFrom { o with optimize := false } dumps rest
  | "--regs" :: [] => .error .missingRegisterCount
  | "--regs" :: count :: rest =>
    match Text.count? count with
    | none => .error .missingRegisterCount
    | some n => configureFrom { o with registers := .firstGeneral n } dumps rest
  | "%s" :: rest => configureFrom o dumps rest
  | flag :: rest =>
    match Dump.ofFlag? flag with
    | some dump => configureFrom o (dump :: dumps) rest
    | none => .error (.unknownFlag flag)

/-- The options and dumps that the flags of a run ask for. -/
def configuration (r : Run) : Except CheckFault (Options × List Dump) := configureFrom {} [] r.args

/-- The output of a run on the text of its file. -/
def execute (r : Run) (source : String) : Except TrialFailure String :=
  match r.configuration with
  | .error fault => .error (.fault fault)
  | .ok (o, dumps) =>
    let output : Outcome String := do
      let m ← Module.parse source
      (Dump.render o m dumps).run' {}
    match output with
    | .ok text => .ok text
    | .error (.error cause) => .error (.fault (.compile cause))
    | .error (.crash text) => .error (.crash text)

end Run

namespace Spec

/-- What a line of a test file holds. -/
inductive Entry
  | run (r : Run)
  | directive (d : Directive)
  /-- The line is nothing to the test. -/
  | other

/-- Reads a line of a test file. Of the directives that the line could start with, the first one in
this order counts. -/
def readLine (text : String) : Except CheckFault Entry :=
  let line := Text.trim text
  let entry (d : String → Directive) (pattern : String) : Except CheckFault Entry :=
    .ok (.directive (d (Text.trim pattern)))
  if let some command := Text.after? "; RUN:" line then
    match Text.words command with
    | [] => .ok .other
    | command :: args => .ok (.run { command, args })
  else if let some pattern := Text.after? "; CHECK-LABEL:" line then entry .label pattern
  else if let some pattern := Text.after? "; CHECK-NEXT:" line then entry .next pattern
  else if let some pattern := Text.after? "; CHECK-NOT:" line then entry .absent pattern
  else if (Text.after? "; CHECK-EMPTY" line).isSome then .ok (.directive .empty)
  else if let some pattern := Text.after? "; CHECK:" line then entry .check pattern
  else if let some remark := Text.after? "; COM:" line then entry .comment remark
  else if (Text.after? "; CHECK" line).isSome then .error (.unknownDirective line)
  else .ok .other

/-- The run of an entry. -/
def Entry.run? : Entry → Option Run
  | run r => some r
  | _ => none

/-- The directive of an entry. -/
def Entry.directive? : Entry → Option Directive
  | directive d => some d
  | _ => none

/-- Reads a test file, which has at least one run. -/
def parse (source : String) : Except CheckFault Spec := do
  let entries ← (Text.lines source).mapM readLine
  let runs := entries.filterMap Entry.run?
  if runs.isEmpty then .error .noRuns
  else .ok { runs, directives := entries.filterMap Entry.directive?, source }

/-- Executes all runs of a test and matches their outputs, up to the first failure. -/
def run (s : Spec) : Except TrialFailure Unit :=
  s.runs.forM fun r => do
    let output ← r.execute s.source
    match Directive.validate output s.directives with
    | .ok () => pure ()
    | .error fault => throw (.fault fault)

end Spec

end SsaCompiler
