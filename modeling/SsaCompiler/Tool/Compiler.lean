import SsaCompiler.Tool.CommandLine
import SsaCompiler.Tool.Report

/-!
# The compiler as a command

The command reads its arguments, then the module text they name, and prints the dumps asked for or
leaves them in a file.
-/

set_option autoImplicit false

namespace SsaCompiler

namespace CommandLine

/-- The line that tells the version. -/
def versionText : String := "sysmips 0.1.0\n"

/-- A summary of the arguments. -/
def helpText : String :=
  "SSA middle-end and MIPS32 backend\n\n"
    ++ "Usage: sysmips [OPTIONS] <INPUT>\n\n"
    ++ "Arguments:\n"
    ++ "  <INPUT>  Input file in textual IR; `-` reads stdin\n\n"
    ++ "Options:\n"
    ++ "      --no-opt         Skip CFG simplification and mem2reg\n"
    ++ "      --regs <N>       Restrict the allocator to the first N general registers\n"
    ++ "      --emit <EMIT>    What to print; may be repeated (default: mips)\n"
    ++ "  -o, --output <FILE>  Output file path (default: stdout)\n"
    ++ "  -v, --verbose        Log pass summaries\n"
    ++ "  -h, --help           Print help\n"
    ++ "  -V, --version        Print version\n"

/-- The report of a command that stops before it reads a module. -/
def stopReport : Stop → Report
  | .usage => { exit := Report.usageCode, stderr := "error: invalid arguments\n" }
  | .version => { stdout := versionText }
  | .help => { stdout := helpText }

/-- The text that a command prints for a module text. -/
def rendered (c : CommandLine) (source : String) : Outcome String := do
  let m ← Module.parse source
  (Dump.render c.options m c.dumps).run' {}

/-- Prints a text or writes it to the file that the command names. -/
def deliver {m : Type → Type} [Monad m] (c : CommandLine) (host : Host m) (text : String) :
    m Report := do
  match c.output with
  | none => return { stdout := text }
  | some path =>
    match ← host.write path text with
    | .ok () => return {}
    | .error reason => return .ofFailure (.error (.io reason))

/-- Carries out a command. -/
def run {m : Type → Type} [Monad m] (c : CommandLine) (host : Host m) : m Report := do
  let path := c.input.getD "-"
  match ← if path = "-" then host.stdin else host.read path with
  | .error reason => return .ofFailure (.error (.io reason))
  | .ok source =>
    match c.rendered source with
    | .error failure => return .ofFailure failure
    | .ok text => c.deliver host text

/-- The compiler with its arguments. -/
def execute {m : Type → Type} [Monad m] (host : Host m) (args : List String) : m Report :=
  match parse args with
  | .error stop => return stopReport stop
  | .ok c => c.run host

end CommandLine

end SsaCompiler
