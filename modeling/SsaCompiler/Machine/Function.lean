import SsaCompiler.Graph.Cfg
import SsaCompiler.Machine.Instr
import SsaCompiler.NatSet

/-!
# Machine functions

A machine function is a list of blocks of machine instructions with a frame. Blocks are numbered in
order, and the first one is the entry.
-/

set_option autoImplicit false

namespace SsaCompiler

/-- A block of machine instructions. -/
structure MachineBlock where
  label : String
  loopDepth : Nat
  insts : List Instr := []
  preds : List Nat := []
  deriving DecidableEq, Repr, Inhabited

/-- A function of machine instructions. -/
structure MachineFunction where
  name : String
  isMain : Bool
  returnsValue : Bool
  blocks : Array MachineBlock := #[]
  /-- The number of virtual registers. -/
  vregCount : Nat := 0
  /-- The virtual registers that were made for spill code. -/
  spillTemps : NatSet := .empty
  /-- The bytes of slots and spilled registers, upward from the stack pointer. -/
  frameSize : Word := 0
  /-- The registers that the prologue saves. -/
  saved : List Register := []
  deriving DecidableEq, Repr, Inhabited

/-- The assembly label of a function. The main function keeps its name. -/
def functionLabel (name : String) : String := if name == "main" then "main" else s!"f_{name}"

/-- The assembly label of a global variable. -/
def globalLabel (name : String) : String := s!"g_{name}"

/-- The assembly label of a string constant. -/
def stringLabel (name : String) : String := s!"s_{name}"

namespace MachineFunction

/-- A function without blocks. -/
def new (name : String) (returnsValue : Bool) : MachineFunction :=
  { name, isMain := name == "main", returnsValue }

/-- The assembly label of the function. -/
def label (mf : MachineFunction) : String := functionLabel mf.name

/-- The function with a fresh virtual register, and the register. -/
def newVreg (mf : MachineFunction) : Operand × MachineFunction :=
  (.virtual mf.vregCount, { mf with vregCount := mf.vregCount + 1 })

/-- The function with a fresh virtual register for spill code, and the register. -/
def newSpillTemp (mf : MachineFunction) : Operand × MachineFunction :=
  (.virtual mf.vregCount,
    { mf with vregCount := mf.vregCount + 1, spillTemps := mf.spillTemps.insert mf.vregCount })

/-- The function with an empty block added. -/
def addBlock (mf : MachineFunction) (loopDepth : Nat) : MachineFunction :=
  { mf with blocks := mf.blocks.push { label := s!"{mf.label}_b{mf.blocks.size}", loopDepth } }

/-- The record of a block. -/
def block (mf : MachineFunction) (b : Nat) : MachineBlock := mf.blocks.getD b default

/-- The instructions of a block. -/
def instsOf (mf : MachineFunction) (b : Nat) : List Instr := (mf.block b).insts

/-- The function with the instructions of a block changed. -/
def modifyInsts (mf : MachineFunction) (b : Nat) (change : List Instr → List Instr) :
    MachineFunction :=
  { mf with blocks := mf.blocks.modify b fun d => { d with insts := change d.insts } }

/-- The function with an instruction appended to a block. -/
def push (mf : MachineFunction) (b : Nat) (i : Instr) : MachineFunction :=
  mf.modifyInsts b (· ++ [i])

/-- The numbers of the blocks. -/
def blockIds (mf : MachineFunction) : List Nat := List.range mf.blocks.size

/-- All instructions in order. -/
def placedInsts (mf : MachineFunction) : List Instr := mf.blocks.toList.flatMap (·.insts)

/-- The blocks that a block may continue at, each once. -/
def successors (mf : MachineFunction) (b : Nat) : List Nat :=
  ((mf.instsOf b).filterMap Instr.target?).foldl
    (fun seen t => if seen.contains t then seen else seen ++ [t]) []

/-- The function with the predecessor lists that belong to its transfers. All targets must exist. -/
def linkBlocks (mf : MachineFunction) : Outcome MachineFunction :=
  if mf.blockIds.all fun b => (mf.successors b).all (· < mf.blocks.size) then
    let succs := mf.blocks.mapIdx fun b _ => mf.successors b
    let preds := Cfg.predecessorsOf succs
    .ok { mf with blocks := mf.blocks.mapIdx fun b d => { d with preds := preds.getD b [] } }
  else .crash

/-- The place of the first transfer of a block; the end of the block if there is none. -/
def firstTransfer (mf : MachineFunction) (b : Nat) : Nat :=
  (mf.instsOf b).findIdx Instr.isTransfer

/-- The number of instructions. -/
def size (mf : MachineFunction) : Nat := mf.placedInsts.length

/-- The function with `bytes` more in its frame, and their offset from the stack pointer. -/
def allocFrame (mf : MachineFunction) (bytes : Word) : Outcome (Word × MachineFunction) := do
  let size ← Outcome.ofOption (Word.add? mf.frameSize bytes)
  return (mf.frameSize, { mf with frameSize := size })

/-- The control-flow graph of a machine function. -/
def cfg (mf : MachineFunction) : Cfg where
  name := mf.name
  entry := 0
  blocks := mf.blockIds
  capacity := mf.blocks.size
  succs b := .ok (mf.successors b)
  preds b := (mf.block b).preds
  label b := (mf.block b).label

end MachineFunction

end SsaCompiler
