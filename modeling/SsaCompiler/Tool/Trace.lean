import SsaCompiler.Pipeline.Compile
import SsaCompiler.Tool.Report

/-!
# Tracing liveness as a command

The command prints the liveness of the code selected for a module, before registers are allocated.
Without a path it traces a small loop of its own.
-/

set_option autoImplicit false

namespace SsaCompiler

namespace Trace

/-- The module that is traced by default. -/
def sample : String :=
  "\nfunc @main() -> int \x7b\n"
    ++ "entry:\n"
    ++ "  %a = call @getint()\n"
    ++ "  jump ^loop\n"
    ++ "loop:\n"
    ++ "  %b = phi [^entry, 0], [^loop, %e]\n"
    ++ "  %c = phi [^entry, %a], [^loop, %f]\n"
    ++ "  %e = add %b, %c\n"
    ++ "  %f = sub %c, 1\n"
    ++ "  %done = le %f, 0\n"
    ++ "  br %done, ^ret, ^loop\n"
    ++ "ret:\n"
    ++ "  ret %e\n"
    ++ "\x7d\n"

/-- The machine code that is traced for a module text. -/
def selected (source : String) : Outcome (List MachineFunction) := do
  let m ← Module.parse source
  Compile.selectModule (← (Compile.optimizeModule {} m).run' {})

/-- Prints the traces of machine functions up to the first failure. -/
def print (printed : String) : List MachineFunction → Report
  | [] => { stdout := printed }
  | mf :: rest =>
    match Liveness.ofFunction mf .general with
    | .ok l => print (printed ++ l.trace mf) rest
    | .error failure => { Report.ofFailure failure with stdout := printed }

/-- The report of a trace of a module text. -/
def run (source : String) : Report :=
  match selected source with
  | .ok functions => print "" functions
  | .error failure => .ofFailure failure

/-- The command with its arguments, of which the first is the path of the module text. -/
def execute {m : Type → Type} [Monad m] (host : Host m) : List String → m Report
  | [] => return run sample
  | path :: _ => do
    match ← host.read path with
    | .ok source => return run source
    | .error reason => return .ofMessage s!"could not read '{path}': {reason}"

end Trace

end SsaCompiler
