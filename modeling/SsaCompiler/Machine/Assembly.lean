import SsaCompiler.Ir.Module
import SsaCompiler.Machine.Function
import SsaCompiler.Machine.Runtime

/-!
# Assembly text

A program is a data section with the globals and strings of the module, a text section with its
functions, the main function first, and the runtime stubs.
-/

set_option autoImplicit false

namespace SsaCompiler

/-- An item of the data section. -/
inductive DataItem
  | words (label : String) (values : List Word)
  | ascii (label : String) (bytes : List UInt8)
  deriving Repr

namespace DataItem

/-- How a byte is written in a quoted string: line feed, quote and backslash have an escape, and every
other byte is the character with its code. -/
def escape (b : UInt8) : List Char :=
  if b = 10 then ['\\', 'n']
  else if b = 34 then ['\\', '"']
  else if b = 92 then ['\\', '\\']
  else [Char.ofNat b.toNat]

/-- The line of an item. -/
def text : DataItem → String
  | words label values =>
    let list := ", ".intercalate (values.map Word.text)
    s!"{label}: .word {list}\n"
  | ascii label bytes =>
    let string := String.ofList (bytes.flatMap escape)
    s!"{label}: .asciiz \"{string}\"\n"

/-- The data section of the items. -/
def sectionText (items : List DataItem) : String := ".data\n" ++ String.join (items.map text)

end DataItem

/-- The data items of a module: its globals and then its strings. -/
def Module.dataItems (m : Module) : List DataItem :=
  m.globals.toList.map (fun g => .words (globalLabel g.name) g.initialWords)
    ++ m.strings.toList.map fun s => .ascii (stringLabel s.name) s.bytes

namespace MachineFunction

/-- The label of a branch target, which must exist. -/
def targetLabel (mf : MachineFunction) (b : Nat) : Outcome String := do
  let block ← Outcome.ofOption mf.blocks[b]?
  return block.label

/-- The lines of an instruction. -/
def instLines (mf : MachineFunction) : Instr → Outcome (List String)
  | .binary op dst lhs rhs =>
    let mnemonic := if rhs.isRegister then op.mnemonic else op.immediateMnemonic
    return [s!"{mnemonic} {dst.text}, {lhs.text}, {rhs.text}"]
  | .compare cond dst lhs rhs =>
    return [s!"{cond.setMnemonic (!rhs.isRegister)} {dst.text}, {lhs.text}, {rhs.text}"]
  | .move dst src =>
    let mnemonic := if src.isRegister then "move" else "li"
    return [s!"{mnemonic} {dst.text}, {src.text}"]
  | .loadAddr dst symbol => return [s!"la {dst.text}, {symbol}"]
  | .load dst base offset _ => return [s!"lw {dst.text}, {Word.text offset}({base.text})"]
  | .store src base offset => return [s!"sw {src.text}, {Word.text offset}({base.text})"]
  | .branch cond lhs rhs target => do
    let label ← mf.targetLabel target
    return [s!"{cond.branchMnemonic} {lhs.text}, {rhs.text}, {label}"]
  | .jump target => do
    let label ← mf.targetLabel target
    return [s!"j {label}"]
  | .call callee _ stackArgs => do
    if stackArgs = 0 then return [s!"jal {callee}"]
    let bytes ← Outcome.ofOption (Word.mul? 4 (Int32.ofNat stackArgs))
    let lowered ← Outcome.ofOption (Word.neg? bytes)
    return [s!"addiu $sp, $sp, {Word.text lowered}", s!"jal {callee}",
      s!"addiu $sp, $sp, {Word.text bytes}"]
  | .ret _ => return ["jr $ra"]
  | .syscall => return ["syscall"]

/-- The text of a block. -/
def blockText (mf : MachineFunction) (block : MachineBlock) : Outcome String := do
  let lines ← block.insts.mapM mf.instLines
  return s!"{block.label}:\n" ++ String.join (lines.flatten.map fun line => s!"  {line}\n")

/-- The text of a function. -/
def text (mf : MachineFunction) : Outcome String := do
  let blocks ← mf.blocks.toList.mapM mf.blockText
  return s!"{mf.label}:\n" ++ String.join blocks

end MachineFunction

/-- A program: data items and functions. -/
structure MachineModule where
  data : List DataItem
  functions : List MachineFunction
  deriving Repr

/-- The text of a program. -/
def MachineModule.text (m : MachineModule) : Outcome String := do
  let functions := m.functions.filter (·.isMain) ++ m.functions.filter fun f => !f.isMain
  let texts ← functions.mapM fun f => do
    let text ← f.text
    return text ++ "\n"
  return DataItem.sectionText m.data ++ "\n.text\n" ++ String.join texts ++ Builtin.stubs

end SsaCompiler
