import SsaCompiler.Tool.Compiler
import SsaCompiler.Tool.FileTree
import SsaCompiler.Tool.Trace

/-!
# The program

The program compiles under its usual name, and traces liveness under the name `trace_liveness`.
-/

set_option autoImplicit false

namespace SsaCompiler

namespace Console

/-- The number under which the system reported an error of a file operation. -/
def code? : IO.Error → Option UInt32
  | .noFileOrDirectory _ code _ | .permissionDenied _ code _ | .inappropriateType _ code _
  | .resourceExhausted _ code _ | .invalidArgument _ code _ => some code
  | _ => none

/-- The wording of a failed file operation. -/
def reason (e : IO.Error) : String :=
  match (code? e).bind fun code => FileFault.ofCode? code.toNat with
  | some fault => fault.reason
  | none => toString e

/-- The text in bytes that were read. -/
def decode (bytes : ByteArray) : Except String String :=
  match String.fromUTF8? bytes with
  | some text => .ok text
  | none => .error "stream did not contain valid UTF-8"

/-- The result of a file operation, or the reason why it failed. -/
def attempt {α : Type} (action : IO (Except String α)) : IO (Except String α) := do
  try action catch e => return .error (reason e)

/-- The files of the system. -/
def host : Host IO where
  stdin := attempt do return decode (← (← IO.getStdin).readBinToEnd)
  read path := attempt do return decode (← IO.FS.readBinFile path)
  write path text := attempt do
    IO.FS.writeFile path text
    return .ok ()

/-- Prints a report and gives its exit code. -/
def finish (r : Report) : IO UInt32 := do
  IO.print r.stdout
  IO.eprint r.stderr
  return UInt32.ofNat r.exit

end Console

end SsaCompiler

open SsaCompiler in
/-- Runs the tool that the name of the program asks for. -/
def main (args : List String) : IO UInt32 := do
  if (← IO.appPath).fileStem == some "trace_liveness" then
    Console.finish (← Trace.execute Console.host args)
  else Console.finish (← CommandLine.execute Console.host args)
