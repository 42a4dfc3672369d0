import SsaCompiler.Error

/-!
# Compilation sessions

A session spans the compilation of a module. It knows the function at work, keeps one copy of each
label, and adds up what the passes did. The counters have 64 bits, and a count that leaves them is a
crash.
-/

set_option autoImplicit false

namespace SsaCompiler

/-- What the passes of a session did. -/
structure SessionStats where
  functionsCompiled : Nat := 0
  machineInstructions : Nat := 0
  /-- The size of the largest function in machine instructions. -/
  largestFunctionSize : Nat := 0
  largestFunctionName : String := ""
  /-- The steps of simplifying control flow. -/
  cfgSteps : Nat := 0
  slotsPromoted : Nat := 0
  /-- The phis placed by promotion, dead ones included. -/
  phisInserted : Nat := 0
  allocRounds : Nat := 0
  spilledNodes : Nat := 0
  coalescedMoves : Nat := 0
  deriving DecidableEq, Repr, Inhabited

namespace SessionStats

/-- The first count that no counter holds. -/
def counterLimit : Nat := 0x10000000000000000

/-- The counts of the statistics, all of which are added up. -/
def counters (s : SessionStats) : List Nat :=
  [s.functionsCompiled, s.machineInstructions, s.cfgSteps, s.slotsPromoted, s.phisInserted,
    s.allocRounds, s.spilledNodes, s.coalescedMoves]

/-- Whether all counts fit their counters. -/
def fits (s : SessionStats) : Bool := s.counters.all (· < counterLimit)

/-- The text of the statistics. -/
def text (s : SessionStats) : String :=
  let largest := if s.largestFunctionName.isEmpty then ""
    else s!"  Largest function: {s.largestFunctionName} ({s.largestFunctionSize} instructions)\n"
  "Compilation Statistics:\n"
    ++ s!"  Functions compiled: {s.functionsCompiled}\n"
    ++ s!"  Machine instructions: {s.machineInstructions}\n"
    ++ largest
    ++ s!"  CFG rewrites: {s.cfgSteps}\n"
    ++ s!"  Slots promoted: {s.slotsPromoted}\n"
    ++ s!"  Phis inserted: {s.phisInserted}\n"
    ++ s!"  Allocation rounds: {s.allocRounds}\n"
    ++ s!"  Spilled nodes: {s.spilledNodes}\n"
    ++ s!"  Coalesced moves: {s.coalescedMoves}"

/-- The statistics with a compiled function counted. Of two functions of equal size the earlier one
stays the largest. -/
def recordFunction (s : SessionStats) (name : String) (size : Nat) : SessionStats :=
  let counted := { s with
    functionsCompiled := s.functionsCompiled + 1
    machineInstructions := s.machineInstructions + size }
  if s.largestFunctionSize < size then
    { counted with largestFunctionSize := size, largestFunctionName := name }
  else counted

end SessionStats

/-- A compilation session. -/
structure Session where
  /-- The function at work. -/
  current : Option String := none
  /-- The labels kept so far. -/
  labels : List String := []
  stats : SessionStats := {}
  deriving DecidableEq, Repr, Inhabited

namespace Session

/-- The session with a label kept, and the number of its copy. -/
def intern (s : Session) (label : String) : Nat × Session :=
  match s.labels.idxOf? label with
  | some k => (k, s)
  | none => (s.labels.length, { s with labels := s.labels ++ [label] })

/-- The session with its statistics changed. A count that leaves its counter is a crash. -/
def record (s : Session) (change : SessionStats → SessionStats) : Outcome Session :=
  let stats := change s.stats
  if stats.fits then .ok { s with stats } else Outcome.crash

end Session

end SsaCompiler
