import SsaCompiler.Machine.Allocate

/-!
# Completing the frame

From high to low addresses a frame holds the stack arguments of the caller, the saved registers and
the slots and spilled registers. The prologue saves every register that may be allocated and is
written, and the return address; each return restores them. The main function never returns, so it
saves nothing and ends with a system call. At last the loads of stack parameters learn how far
above the stack pointer their words are.
-/

set_option autoImplicit false

namespace SsaCompiler

namespace MachineFunction

/-- The service number of the system call that ends the program. -/
def exitService : Word := 10

/-- Moves the stack pointer. -/
def adjustSp (delta : Word) : Instr := .binary .addu .sp .sp (.immediate delta)

/-- The registers that the function must preserve, in order. -/
def registersToSave (mf : MachineFunction) : List Register :=
  if mf.isMain then []
  else
    let written := (mf.placedInsts.flatMap Instr.defs).filterMap Operand.register?
    (RegisterSet.ofList (.ra :: written.filter Register.isGeneral)).toList

/-- The frame offsets of saved registers. -/
def saveOffsets (saved : List Register) : List (Register × Word) :=
  saved.zipIdx.map fun (r, i) => (r, Int32.ofNat (4 * i))

/-- The instructions that open a function. -/
def prologue (saved : List Register) (frame savedBytes : Word) : List Instr :=
  (if 0 < savedBytes then
      adjustSp (-savedBytes) ::
        (saveOffsets saved).map fun (r, offset) => .store (.fixed r) .sp offset
    else [])
    ++ if 0 < frame then [adjustSp (-frame)] else []

/-- The instructions before a return. -/
def epilogue (saved : List Register) (frame savedBytes : Word) : List Instr :=
  (if 0 < frame then [adjustSp frame] else [])
    ++ ((saveOffsets saved).map fun (r, offset) => .load (.fixed r) .sp offset false)
    ++ if 0 < savedBytes then [adjustSp savedBytes] else []

/-- What stands in the place of an instruction: a return gets its epilogue, and in the main function
it ends the program. -/
def closeReturn (isMain : Bool) (ending : List Instr) : Instr → List Instr
  | .ret usesV0 =>
    if isMain then [.move .v0 (.immediate exitService), .syscall] else ending ++ [.ret usesV0]
  | i => [i]

/-- An instruction with the offset of a stack parameter completed. -/
def completeOffset (fixup : Word) : Instr → Outcome Instr
  | .load dst base offset true => do
    let offset ← Outcome.ofOption (Word.add? offset fixup)
    return .load dst base offset true
  | i => return i

end MachineFunction

namespace MachineEdit

/-- Completes the frame of an allocated function. -/
def finalizeFrame : MachineEdit Unit := do
  let mf ← get
  match mf.placedInsts.find? fun i => i.mentions.any fun op => op.virtual?.isSome with
  | some i => throw (.error (.invariant mf.name (.unallocated i.describe)))
  | none => pure ()
  let saved := mf.registersToSave
  let frame := mf.frameSize
  let savedBytes : Word := Int32.ofNat (4 * saved.length)
  let opening := MachineFunction.prologue saved frame savedBytes
  let ending := MachineFunction.epilogue saved frame savedBytes
  if mf.blocks.isEmpty && !opening.isEmpty then throw (.crash none)
  let fixup ← ask fun _ => Outcome.ofOption (Word.add? frame savedBytes)
  let blocks ← ask fun mf => mf.blocks.toList.zipIdx.mapM fun (b, index) => do
    let insts := (if index = 0 then opening else []) ++ b.insts
    let insts := insts.flatMap (MachineFunction.closeReturn mf.isMain ending)
    return { b with insts := ← insts.mapM (MachineFunction.completeOffset fixup) }
  set { mf with blocks := blocks.toArray, saved }

end MachineEdit

end SsaCompiler
