import SsaCompiler.Machine.Function

/-!
# Spilling registers

A spilled virtual register lives in a word of the frame. Where it is mentioned a temporary takes its
place, one for each run of instructions that mention it, loaded before the run if the run reads the
old value and stored behind the last write of the run.
-/

set_option autoImplicit false

namespace SsaCompiler

namespace Instr

/-- Whether an instruction mentions an operand. -/
def mentionsOperand (target : Operand) (i : Instr) : Bool :=
  i.uses.contains target || i.defs.contains target

/-- The instruction with one operand replaced. -/
def replace (target temp : Operand) (i : Instr) : Instr :=
  i.mapRegisters fun op => if op = target then temp else op

end Instr

namespace Spill

/-- The most instructions that one temporary covers. -/
def spanLimit : Nat := 30

/-- Whether a run reads the value from before it: some instruction reads the register and none before
that one writes it. -/
def readsOld (target : Operand) : List Instr → Bool
  | [] => false
  | i :: rest => i.uses.contains target || (!i.defs.contains target && readsOld target rest)

/-- A run with a store behind its last write. -/
def withStore (target temp : Operand) (offset : Word) : List Instr → List Instr
  | [] => []
  | i :: rest =>
    let written := rest.any fun j => j.defs.contains target
    let here := i.replace target temp
    if i.defs.contains target && !written then
      here :: .store temp .sp offset :: rest.map (Instr.replace target temp)
    else here :: withStore target temp offset rest

/-- A run through a temporary. -/
def reloadRun (target temp : Operand) (offset : Word) (run : List Instr) : List Instr :=
  let body := withStore target temp offset run
  if readsOld target run then .load temp .sp offset false :: body else body

/-- Instructions with each run through a temporary of its own; the temporaries are numbered from the
function's next virtual register on. -/
def reloadInsts (target : Operand) (offset : Word) (mf : MachineFunction) :
    List Instr → List Instr × MachineFunction
  | [] => ([], mf)
  | i :: rest =>
    if i.mentionsOperand target then
      let run := i :: (rest.takeWhile (Instr.mentionsOperand target)).take (spanLimit - 1)
      let (temp, mf) := mf.newSpillTemp
      let (more, mf) := reloadInsts target offset mf (rest.drop (run.length - 1))
      (reloadRun target temp offset run ++ more, mf)
    else
      let (more, mf) := reloadInsts target offset mf rest
      (i :: more, mf)
termination_by insts => insts.length
decreasing_by all_goals (simp only [List.length_cons, List.length_drop]; omega)

/-- The function with the runs of one block through temporaries. -/
def reloadBlock (target : Operand) (offset : Word) (mf : MachineFunction) (b : Nat) :
    MachineFunction :=
  let (insts, mf) := reloadInsts target offset mf (mf.instsOf b)
  mf.modifyInsts b fun _ => insts

end Spill

/-- The function with a virtual register kept in a new word of its frame. -/
def MachineFunction.spill (mf : MachineFunction) (vreg : Nat) : Outcome MachineFunction := do
  let (offset, mf) ← mf.allocFrame 4
  return mf.blockIds.foldl (Spill.reloadBlock (.virtual vreg) offset) mf

end SsaCompiler
