import SsaCompiler.Ir.Function
import SsaCompiler.Proofs.Machine.Semantics

/-!
# Running functions

The meaning of functions in intermediate form. A state has the current block, the instructions of it
that are still to be run, a word for each value that was computed so far, and memory. What lies outside
the function (arguments, addresses of globals, strings and reserved words, callees, printing) is an
environment. The address of reserved words is a function of the reserving instruction alone.

Going from one block to another is one step together with the phis of the target, which are all read
before any of them is written, each in the slot of the edge that is taken. No edge leads to the entry at
the start, so a phi there is a fault.
-/

set_option autoImplicit false

namespace SsaCompiler

/-- What an observer sees of a function. -/
inductive IrEvent
  | load (address value : Word)
  | store (address value : Word)
  | call (callee : Callee) (args : List Word)
  | print (pieces : List PrintPiece) (args : List Word)
  deriving DecidableEq

/-- How a run of a function ends. -/
inductive IrOutcome
  | returned (value : Option Word)
  /-- The callee does not come back from this call. -/
  | halted (last : IrEvent)
  /-- A division by zero, a value that is read before it is computed, an edge that its target does not
  list, or no instruction to run. -/
  | fault
  deriving DecidableEq

/-- What surrounds a function. `W` is the state of the outside world. -/
structure IrEnv (W : Type) where
  /-- The arguments by place. -/
  arg : Nat → Word
  global : GlobalId → Word
  str : StringId → Word
  /-- The address of the words that an instruction reserves. -/
  slot : InstId → Word
  /-- What a callee makes of its arguments, memory and world: memory, a result, and world. -/
  call : Callee → List Word → Memory → W → Option (Memory × Word × W)
  print : List PrintPiece → List Word → W → W

/-- A state of a running function. -/
structure IrState (W : Type) where
  block : BlockId
  /-- The instructions of the block that are still to be run. -/
  code : List InstId
  vals : ValueId → Option Word
  memory : Memory
  world : W

namespace InstKind

/-- What an instruction does. -/
inductive Action (W : Type)
  /-- It ends the run. -/
  | stop (outcome : IrOutcome)
  /-- It goes to a block. -/
  | goto (target : BlockId)
  /-- It gives a word for its result, changes memory and world, and shows events. -/
  | effect (value : Option Word) (memory : Memory) (world : W) (events : List IrEvent)

/-- What an instruction does with the words of its operands; `i` is its number. -/
def perform {W : Type} (env : IrEnv W) (kind : InstKind) (i : InstId) (values : List Word) (m : Memory)
    (w : W) : Action W :=
  match kind, values with
  | binary op, [l, r] =>
    match op.eval? l r with
    | some v => .effect (some v) m w []
    | none => .stop .fault
  | branch thenBlock elseBlock, [c] => .goto (if c ≠ 0 then thenBlock else elseBlock)
  | jump target, [] => .goto target
  | ret, [] => .stop (.returned none)
  | ret, [v] => .stop (.returned (some v))
  | gep multiplier, [base, index] => .effect (some (base + index * multiplier * 4)) m w []
  | load, [base, index] =>
    let a := base + index * 4
    .effect (some (m a)) m w [.load a (m a)]
  | store, [base, index, data] =>
    let a := base + index * 4
    .effect none (m.set a data) w [.store a data]
  | call callee, args =>
    match env.call callee args m w with
    | some (m', v, w') => .effect (some v) m' w' [.call callee args]
    | none => .stop (.halted (.call callee args))
  | alloca _, [] => .effect (some (env.slot i)) m w []
  | print pieces, args => .effect none m (env.print pieces args w) [.print pieces args]
  | _, _ => .stop .fault

end InstKind

namespace Function

variable {W : Type}

/-- The word of a value, if it has one yet. -/
def read (f : Function) (env : IrEnv W) (vals : ValueId → Option Word) (v : ValueId) : Option Word :=
  match (f.value v).kind with
  | .inst _ => vals v
  | .param index => some (env.arg index)
  | .const c => some c
  | .global g => some (env.global g)
  | .str s => some (env.str s)

/-- The values with a word for a result. -/
def assign (vals : ValueId → Option Word) (result : Option ValueId) (value : Option Word) :
    ValueId → Option Word :=
  match result, value with
  | some r, some x => Function.update vals r (some x)
  | _, _ => vals

/-- The result of a phi with the word in one of its slots. -/
def incoming (f : Function) (env : IrEnv W) (vals : ValueId → Option Word) (slot : Nat) (phi : InstId) :
    Option (ValueId × Word) := do
  let v ← (f.operands phi)[slot]?
  return (← f.result? phi, ← f.read env vals v)

/-- The values with the words that phis give to their results. -/
def assignAll (vals : ValueId → Option Word) (assigned : List (ValueId × Word)) : ValueId → Option Word :=
  assigned.foldl (fun vals e => Function.update vals e.1 (some e.2)) vals

/-- Goes over an edge to another block, through the phis of that block. -/
def follow (f : Function) (env : IrEnv W) (s : IrState W) (target : BlockId) :
    Progress (IrState W) IrEvent IrOutcome :=
  match f.predIndex? target s.block with
  | none => .done .fault
  | some slot =>
    match (f.phis target).mapM (f.incoming env s.vals slot) with
    | none => .done .fault
    | some assigned =>
      .next [] { s with
        block := target
        code := (f.instsOf target).dropWhile fun i => (f.kind i).isPhi
        vals := assignAll s.vals assigned }

/-- Runs the next instruction. -/
def step (f : Function) (env : IrEnv W) (s : IrState W) : Progress (IrState W) IrEvent IrOutcome :=
  match s.code with
  | [] => .done .fault
  | i :: rest =>
    match (f.operands i).mapM (f.read env s.vals) with
    | none => .done .fault
    | some values =>
      match (f.kind i).perform env i values s.memory s.world with
      | .stop o => .done o
      | .goto target => f.follow env s target
      | .effect value memory world events =>
        .next events { s with code := rest, vals := assign s.vals (f.result? i) value, memory, world }

/-- The state in which a run begins. -/
def start (f : Function) (m : Memory) (w : W) : IrState W :=
  { block := f.layout.headD 0
    code := f.instsOf (f.layout.headD 0)
    vals := fun _ => none
    memory := m
    world := w }

end Function

end SsaCompiler
