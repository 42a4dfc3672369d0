import SsaCompiler.Error

/-!
# Reports

What a command leaves behind: its exit code and what it writes to the two streams. The files that it
reads and writes on the way belong to its host.
-/

set_option autoImplicit false

namespace SsaCompiler

/-- The end of a command. -/
structure Report where
  exit : Nat := 0
  stdout : String := ""
  stderr : String := ""
  deriving DecidableEq, Repr

namespace Report

/-- The exit code of a failed command. -/
def failureCode : Nat := 1

/-- The exit code of a command line that is not understood. -/
def usageCode : Nat := 2

/-- The exit code of a crash. -/
def crashCode : Nat := 101

/-- The report of an error. -/
def ofMessage (text : String) : Report := { exit := failureCode, stderr := s!"error: {text}\n" }

/-- The report of a failure. -/
def ofFailure : Failure → Report
  | .error cause => ofMessage cause.message
  | .crash text => { exit := crashCode, stderr := text.getD "" }

end Report

/-- The files around a command. What fails does so for a reason. -/
structure Host (m : Type → Type) where
  /-- The text on the standard input. -/
  stdin : m (Except String String)
  /-- The text of the file at a path. -/
  read (path : String) : m (Except String String)
  /-- Writes a text to the file at a path. -/
  write (path text : String) : m (Except String Unit)

end SsaCompiler
