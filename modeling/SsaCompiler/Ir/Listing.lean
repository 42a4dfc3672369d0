import SsaCompiler.Ir.Module

/-!
# Listing modules

Values are untyped words; the listing spells them as `i32` and spells the addresses of globals,
strings and slots as pointers. A comparison prints as a test of one bit and its widening, and a
memory access prints its address computation on a line of its own. The names of such extra lines
are numbered through the function.
-/

set_option autoImplicit false

namespace SsaCompiler

namespace Function

/-- The type of a value in the listing. -/
def typeOf (f : Function) (v : ValueId) : String :=
  match (f.value v).kind with
  | .global _ => "i32*"
  | .str _ => "i8*"
  | .inst i =>
    match f.kind i with
    | .alloca _ | .gep _ => "i32*"
    | _ => "i32"
  | _ => "i32"

/-- The address of the first element of an array in the listing. -/
def firstElement (count : Nat) (element name : String) : String :=
  s!"getelementptr inbounds ([{count} x {element}], [{count} x {element}]* @{name}, i32 0, i32 0)"

/-- A value as an operand in the listing. -/
def listOperand (m : Module) (f : Function) (v : ValueId) : Outcome String := do
  match (f.value v).kind with
  | .const c => return Word.text c
  | .global g =>
    let global ← m.global g
    return if global.isArray then firstElement global.words "i32" global.name
      else s!"@{global.name}"
  | .str s =>
    let string ← m.string s
    return firstElement string.len "i8" string.name
  | .param _ | .inst _ => return f.valueLabel v

/-- A value with its type. -/
def listTyped (m : Module) (f : Function) (v : ValueId) : Outcome String := do
  let operand ← f.listOperand m v
  return s!"{f.typeOf v} {operand}"

/-- The operand in a slot. -/
def listSlot (m : Module) (f : Function) (i : InstId) (slot : Nat) : Outcome String := do
  f.listOperand m (← f.operand i slot)

/-- The operand in a slot with its type. -/
def listTypedSlot (m : Module) (f : Function) (i : InstId) (slot : Nat) : Outcome String := do
  f.listTyped m (← f.operand i slot)

/-- The name of a comparison in the listing. -/
def conditionName : BinaryOp → String
  | .lt => "slt"
  | .le => "sle"
  | .gt => "sgt"
  | .ge => "sge"
  | .eq => "eq"
  | _ => "ne"

/-- The name of an arithmetic operator in the listing. -/
def arithmeticName : BinaryOp → String
  | .div => "sdiv"
  | .mod => "srem"
  | op => op.mnemonic

/-- Whether an instruction needs a name for an extra line. -/
def needsTemp : InstKind → Bool
  | .binary op => op.isCompare
  | .branch .. | .load | .store => true
  | .gep multiplier => multiplier != 1
  | .alloca words => words != 1
  | _ => false

/-- The line that computes the address of an access. -/
def addressLine (m : Module) (f : Function) (i : InstId) (temp : String) : Outcome String := do
  let base ← f.listSlot m i 0
  let index ← f.listTypedSlot m i 1
  return s!"{temp} = getelementptr inbounds i32, i32* {base}, {index}"

/-- The lines of the pieces of a print with the arguments left. -/
def pieceLines (m : Module) (f : Function) : List PrintPiece → List ValueId → Outcome (List String)
  | [], _ => return []
  | .str s :: pieces, args => do
    let string ← m.string s
    let address := firstElement string.len "i8" string.name
    let rest ← pieceLines m f pieces args
    return s!"call void @putstr(i8* {address})" :: rest
  | .arg :: pieces, v :: args => do
    let value ← f.listTyped m v
    let rest ← pieceLines m f pieces args
    return s!"call void @putint({value})" :: rest
  | .arg :: pieces, [] => do
    let rest ← pieceLines m f pieces []
    return "call void @putint(i32 undef)" :: rest

/-- The lines of an instruction; `temp` is the name of its extra line. -/
def instLines (m : Module) (f : Function) (i : InstId) (temp : String) : Outcome (List String) := do
  let result := match f.result? i with
    | some r => f.valueLabel r
    | none => ""
  match f.kind i with
  | .binary op =>
    let l ← f.listTypedSlot m i 0
    let r ← f.listSlot m i 1
    if op.isCompare then
      return [s!"{temp} = icmp {conditionName op} {l}, {r}",
        s!"{result} = zext i1 {temp} to i32"]
    else
      return [s!"{result} = {arithmeticName op} {l}, {r}"]
  | .branch t e =>
    let cond ← f.listTypedSlot m i 0
    return [s!"{temp} = icmp ne {cond}, 0",
      s!"br i1 {temp}, label %{f.blockName t}, label %{f.blockName e}"]
  | .jump t => return [s!"br label %{f.blockName t}"]
  | .ret =>
    match (f.operands i).head? with
    | some v =>
      let value ← f.listTyped m v
      return [s!"ret {value}"]
    | none => return ["ret void"]
  | .gep multiplier =>
    let base ← f.listSlot m i 0
    let index ← f.listTypedSlot m i 1
    if multiplier = 1 then
      return [s!"{result} = getelementptr inbounds i32, i32* {base}, {index}"]
    else
      return [s!"{temp} = mul {index}, {Word.text multiplier}",
        s!"{result} = getelementptr inbounds i32, i32* {base}, i32 {temp}"]
  | .load =>
    let address ← f.addressLine m i temp
    return [address, s!"{result} = load i32, i32* {temp}"]
  | .store =>
    let address ← f.addressLine m i temp
    let data ← f.listTypedSlot m i 2
    return [address, s!"store {data}, i32* {temp}"]
  | .call callee =>
    let (name, returns) := match callee with
      | .func id => ((m.function id).name, (m.function id).returnsValue)
      | .builtin b => (b.name, b.returnsValue)
    let args := ", ".intercalate (← (f.operands i).mapM (f.listTyped m))
    let call := s!"@{name}({args})"
    return [if returns then s!"{result} = call i32 {call}" else s!"call void {call}"]
  | .alloca words =>
    if words = 1 then
      return [s!"{result} = alloca i32"]
    else
      return [s!"{temp} = alloca [{words} x i32]",
        s!"{result} = getelementptr inbounds [{words} x i32], [{words} x i32]* {temp}, i32 0, i32 0"]
  | .phi =>
    let block := (f.blockOf? i).getD (f.layout.headD 0)
    let incoming ← ((f.operands i).zip (f.preds block)).mapM fun (v, p) => do
      let value ← f.listOperand m v
      return s!"[ {value}, %{f.blockName p} ]"
    return [s!"{result} = phi i32 " ++ ", ".intercalate incoming]
  | .print pieces => f.pieceLines m pieces (f.operands i)

/-- The lines of instructions, extra names numbered from `next` on, and the next free number. -/
def blockLines (m : Module) (f : Function) : List InstId → Nat → Outcome (List String × Nat)
  | [], next => return ([], next)
  | i :: rest, next => do
    let lines ← f.instLines m i s!"%t{next}"
    let (more, last) ← blockLines m f rest (if needsTemp (f.kind i) then next + 1 else next)
    return (lines.map (fun line => s!"  {line}\n") ++ more, last)

/-- The line that opens a block. -/
def blockHeading (f : Function) (b : BlockId) : String :=
  let preds := ", ".intercalate ((f.preds b).map fun p => s!"%{f.blockName p}")
  if (f.preds b).isEmpty then s!"{f.blockName b}:\n"
  else s!"{f.blockName b}:                                    ; preds = {preds}\n"

/-- The text of blocks, extra names numbered from `next` on. -/
def blocksText (m : Module) (f : Function) : List BlockId → Nat → Outcome (List String)
  | [], _ => return []
  | b :: rest, next => do
    let (lines, next) ← f.blockLines m (f.instsOf b) next
    let more ← blocksText m f rest next
    return (f.blockHeading b ++ String.join lines) :: more

/-- The listing of a function. -/
def listing (m : Module) (f : Function) : Outcome String := do
  let type := if f.returnsValue then "i32" else "void"
  let params := ", ".intercalate (f.params.map fun p => s!"i32 {f.valueLabel p}")
  let blocks ← f.blocksText m f.layout 0
  return s!"define dso_local {type} @{f.name}({params}) \x7b\n"
    ++ "\n".intercalate blocks ++ "\x7d\n"

end Function

namespace Module

/-- The declaration of a builtin. -/
def builtinLine : Builtin → String
  | .getInt => "declare i32 @getint()"
  | .putInt => "declare void @putint(i32)"
  | .putCh => "declare void @putch(i32)"
  | .putStr => "declare void @putstr(i8*)"

/-- The definition of a global variable. -/
def globalLine (g : GlobalVar) : String :=
  let storage := if g.constant then "constant" else "global"
  let words := g.initialWords
  if g.isArray then
    let items := ", ".intercalate (words.map fun w => s!"i32 {Word.text w}")
    let init := if words.all (· == 0) then "zeroinitializer" else s!"[{items}]"
    s!"@{g.name} = dso_local {storage} [{g.words} x i32] {init}\n"
  else s!"@{g.name} = dso_local {storage} i32 {Word.text (words.headD 0)}\n"

/-- The definition of a string constant. -/
def stringLine (s : StringConst) : String :=
  s!"@{s.name} = constant [{s.len} x i8] c\"{s.text}\\00\"\n"

/-- The listing of a module. -/
def listing (m : Module) : Outcome String := do
  let builtins := String.join (Builtin.all.map fun b => builtinLine b ++ "\n")
  let gap := if m.globals.isEmpty && m.strings.isEmpty then "" else "\n"
  let globals := String.join (m.globals.toList.map globalLine)
  let strings := String.join (m.strings.toList.map stringLine)
  let functions ← m.functions.toList.mapM fun f => do
    let text ← f.listing m
    return "\n" ++ text
  return builtins ++ gap ++ globals ++ strings ++ String.join functions

end Module

end SsaCompiler
