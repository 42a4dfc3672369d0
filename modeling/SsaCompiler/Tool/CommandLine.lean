import SsaCompiler.Pipeline.Dump
import SsaCompiler.Text.Numeral

/-!
# The command line of the compiler

Arguments are read from left to right. An option with a value takes it from the next argument or
from behind an equals sign; one-letter options may stand in a row behind a single dash. An argument
that starts with a dash is no value, the dash alone excepted, which names the standard input. Two
dashes end the options. Only the option for dumps may be repeated.
-/

set_option autoImplicit false

namespace SsaCompiler

/-- What the compiler is asked to do. -/
structure CommandLine where
  /-- The path of the module text; a dash stands for the standard input. -/
  input : Option String := none
  noOpt : Bool := false
  /-- How many of the general registers may be allocated. -/
  registers : Option Nat := none
  /-- The dumps asked for. -/
  emit : List Dump := []
  /-- The path to write to in place of the standard output. -/
  output : Option String := none
  verbose : Bool := false
  deriving DecidableEq, Repr

namespace CommandLine

/-- Why reading the arguments stops early. -/
inductive Stop
  /-- The arguments are not understood. -/
  | usage
  | version
  | help
  deriving DecidableEq, Repr

/-- The options that take a value. -/
inductive Setting
  | registers
  | emit
  | output
  deriving DecidableEq, Repr

/-- A command line read so far, or the reason to stop. -/
abbrev Parsed := Except Stop

/-- Gives an option its value. -/
def assign (c : CommandLine) (value : String) : Setting → Parsed CommandLine
  | .registers =>
    match c.registers, Text.count? value with
    | none, some n => .ok { c with registers := some n }
    | _, _ => .error .usage
  | .emit =>
    match Dump.ofName? value with
    | some dump => .ok { c with emit := c.emit ++ [dump] }
    | none => .error .usage
  | .output =>
    if c.output.isSome || value.isEmpty then .error .usage else .ok { c with output := some value }

/-- Takes a path as the input, of which there is one. -/
def takeInput (c : CommandLine) (path : String) : Parsed CommandLine :=
  if c.input.isSome || path.isEmpty then .error .usage else .ok { c with input := some path }

/-- Skips optimization, which is said once. -/
def skipOptimization (c : CommandLine) : Parsed CommandLine :=
  if c.noOpt then .error .usage else .ok { c with noOpt := true }

/-- Asks for diagnostics, which is said once. -/
def askVerbose (c : CommandLine) : Parsed CommandLine :=
  if c.verbose then .error .usage else .ok { c with verbose := true }

/-- Reads a row of one-letter options, and tells the one that still needs its value. -/
def readLetters (c : CommandLine) : List Char → Parsed (CommandLine × Option Setting)
  | [] => .ok (c, none)
  | 'v' :: rest => do (← c.askVerbose).readLetters rest
  | 'V' :: _ => .error .version
  | 'h' :: _ => .error .help
  | 'o' :: [] => .ok (c, some .output)
  | 'o' :: '=' :: value => return (← c.assign (String.ofList value) .output, none)
  | 'o' :: value => return (← c.assign (String.ofList value) .output, none)
  | _ => .error .usage

/-- The option with a value that a long name means. -/
def setting? (name : String) : Option Setting :=
  if name = "regs" then some .registers
  else if name = "emit" then some .emit
  else if name = "output" then some .output
  else none

/-- Reads a long option, the characters behind its two dashes, and tells it if it still needs its
value. -/
def readLong (c : CommandLine) (option : List Char) : Parsed (CommandLine × Option Setting) :=
  let name := String.ofList (option.takeWhile (· != '='))
  let value := option.dropWhile (· != '=')
  match setting? name, value with
  | some s, [] => .ok (c, some s)
  | some s, _ :: value => return (← c.assign (String.ofList value) s, none)
  | none, _ :: _ => .error .usage
  | none, [] =>
    if name = "no-opt" then return (← c.skipOptimization, none)
    else if name = "verbose" then return (← c.askVerbose, none)
    else if name = "version" then .error .version
    else if name = "help" then .error .help
    else .error .usage

/-- Whether an argument may be the value of the option before it. -/
def isValue (arg : String) : Bool := arg == "-" || arg.toList.head? != some '-'

/-- Reads arguments, the first of which may be the value that `pending` needs. -/
def readFrom (c : CommandLine) (pending : Option Setting) : List String → Parsed CommandLine
  | [] => if pending.isSome then .error .usage else .ok c
  | arg :: rest =>
    match pending with
    | some s =>
      if isValue arg then do (← c.assign arg s).readFrom none rest else .error .usage
    | none =>
      if isValue arg then do (← c.takeInput arg).readFrom none rest
      else if arg = "--" then rest.foldlM takeInput c
      else match arg.toList.drop 1 with
        | '-' :: option => do
          let (c, pending) ← c.readLong option
          c.readFrom pending rest
        | letters => do
          let (c, pending) ← c.readLetters letters
          c.readFrom pending rest

/-- Reads the arguments of the compiler, which name an input. -/
def parse (args : List String) : Parsed CommandLine := do
  let c ← readFrom {} none args
  if c.input.isSome then return c else .error .usage

/-- The options of the pipeline. -/
def options (c : CommandLine) : Options :=
  { optimize := !c.noOpt
    registers := match c.registers with
      | some n => .firstGeneral n
      | none => .general }

/-- The dumps to print, by default the assembly text. -/
def dumps (c : CommandLine) : List Dump := if c.emit.isEmpty then [.mips] else c.emit

end CommandLine

end SsaCompiler
