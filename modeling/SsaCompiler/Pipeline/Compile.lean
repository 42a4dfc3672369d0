import SsaCompiler.Ir.Promote
import SsaCompiler.Ir.Verify
import SsaCompiler.Machine.Assembly
import SsaCompiler.Machine.Frame
import SsaCompiler.Machine.Select
import SsaCompiler.Pipeline.Session
import SsaCompiler.Text.Reading

/-!
# The pipeline

A function is verified, its slots are promoted and its control flow is simplified once more; then
its instructions are selected, its registers allocated and its frame completed. The main function
is compiled first. The first error ends the run.
-/

set_option autoImplicit false

namespace SsaCompiler

/-- How a module is compiled. -/
structure Options where
  /-- Whether slots are promoted and control flow is simplified. -/
  optimize : Bool := true
  /-- Whether functions are verified before and after each pass. -/
  verify : Bool := true
  /-- The registers that may be allocated. -/
  registers : RegisterSet := .general
  /-- A cap on the rounds of allocation. -/
  maxRounds : Option Nat := none
  deriving Repr

/-- A step of the pipeline. -/
abbrev Compile := StateT Session Outcome

namespace Function

/-- Runs an edit on a function that fails with the edit. -/
def apply {α : Type} (f : Function) (edit : Edit α) : Outcome (α × Function) :=
  match edit.run f with
  | (.ok a, f) => .ok (a, f)
  | (.error e, _) => .error e

end Function

namespace MachineFunction

/-- Runs an edit on a machine function that fails with the edit. -/
def apply {α : Type} (mf : MachineFunction) (edit : MachineEdit α) : Outcome (α × MachineFunction) :=
  match edit.run mf with
  | (.ok a, mf) => .ok (a, mf)
  | (.error e, _) => .error e

end MachineFunction

namespace Compile

/-- Notes the function at work. -/
def setCurrent (name : Option String) : Compile Unit := modify fun s => { s with current := name }

/-- Changes the statistics. -/
def record (change : SessionStats → SessionStats) : Compile Unit := do
  set (← (← get).record change)

/-- Verifies a function if the options ask for it. -/
def check (o : Options) (f : Function) : Outcome Unit := if o.verify then f.verify else pure ()

/-- Promotes the slots of a function and simplifies it. -/
def optimizeFunction (o : Options) (f : Function) : Compile Function := do
  check o f
  if !o.optimize then return f
  let (stats, f) ← f.apply Edit.promote
  check o f
  let (steps, f) ← f.apply Edit.simplify
  check o f
  record fun s => { s with
    cfgSteps := s.cfgSteps + stats.cfgSteps + steps
    slotsPromoted := s.slotsPromoted + stats.promoted
    phisInserted := s.phisInserted + stats.phisInserted }
  return f

/-- Optimizes all functions of a module. -/
def optimizeModule (o : Options) (m : Module) : Compile Module := do
  let functions ← m.functions.toList.mapM fun f => do
    setCurrent (some f.name)
    optimizeFunction o f
  setCurrent none
  return { m with functions := functions.toArray }

/-- The machine code of a function on virtual registers. -/
def select (m : Module) (id : FuncId) : Outcome MachineFunction := do
  let f := m.function id
  let tree ← DominatorTree.ofCfg f.cfg
  f.select m (LoopForest.ofCfg f.cfg tree)

/-- The machine code of all functions on virtual registers, the main function first. -/
def selectModule (m : Module) : Outcome (List MachineFunction) := m.functionOrder.mapM (select m)

/-- The finished machine code of a function. -/
def compileFunction (o : Options) (m : Module) (id : FuncId) : Compile MachineFunction := do
  let name := (m.function id).name
  setCurrent (some name)
  let mf ← select m id
  let (a, mf) ← mf.apply (MachineEdit.allocate o.registers o.maxRounds)
  record fun s => { s with
    allocRounds := s.allocRounds + a.rounds
    spilledNodes := s.spilledNodes + a.spilled
    coalescedMoves := s.coalescedMoves + a.coalescedMoves }
  let (_, mf) ← mf.apply MachineEdit.finalizeFrame
  record (·.recordFunction name mf.size)
  setCurrent none
  return mf

/-- The program of an optimized module. -/
def lowerModule (o : Options) (m : Module) : Compile MachineModule := do
  let functions ← m.functionOrder.mapM (compileFunction o m)
  return { data := m.dataItems, functions }

/-- The assembly text of a module. -/
def assembly (o : Options) (m : Module) : Compile String := do
  let m ← optimizeModule o m
  let program ← lowerModule o m
  program.text

end Compile

end SsaCompiler
