import SsaCompiler.Ir.Function

/-!
# Snapshots of functions

A snapshot shows everything a function holds, by arena number: the blocks of the layout with their
predecessors and instructions, and all values with the slots that read them, in the order in which
the use index lists them.
-/

set_option autoImplicit false

namespace SsaCompiler

namespace PrintPiece

/-- A piece of a print format in a snapshot. -/
def tag : PrintPiece → String
  | str s => s!"s{s}"
  | arg => "arg"

end PrintPiece

namespace InstKind

/-- The kind of an instruction in a snapshot. -/
def tag : InstKind → String
  | binary op => op.mnemonic
  | branch t e => s!"br(b{t},b{e})"
  | jump t => s!"jump(b{t})"
  | ret => "ret"
  | gep c => s!"gep({Word.text c})"
  | load => "load"
  | store => "store"
  | call (.func f) => s!"call(f{f})"
  | call (.builtin b) => s!"call({b.name})"
  | alloca n => s!"alloca({n})"
  | phi => "phi"
  | print pieces => "print(" ++ ",".intercalate (pieces.map PrintPiece.tag) ++ ")"

end InstKind

namespace ValueKind

/-- The kind of a value in a snapshot. -/
def tag : ValueKind → String
  | inst i => s!"i{i}"
  | param k => s!"param{k}"
  | const c => s!"const {Word.text c}"
  | global g => s!"global{g}"
  | str s => s!"str{s}"

end ValueKind

namespace Function

/-- Numbers in brackets, each behind a letter. -/
def numbered (letter : String) (l : List Nat) : String :=
  "[" ++ ",".intercalate (l.map fun n => s!"{letter}{n}") ++ "]"

/-- The line of an instruction. -/
def instLine (f : Function) (i : InstId) : String :=
  let result := match f.result? i with
    | some v => s!"v{v} = "
    | none => ""
  s!"  i{i} {result}{(f.kind i).tag} " ++ numbered "v" (f.operands i)

/-- The lines of a block. -/
def blockSnapshot (f : Function) (b : BlockId) : List String :=
  (s!"b{b} {f.blockName b} preds=" ++ numbered "b" (f.preds b)) :: (f.instsOf b).map f.instLine

/-- The line of a value. -/
def valueLine (f : Function) (v : ValueId) : String :=
  let d := f.value v
  let dead := if d.live then "" else " dead"
  let uses := ",".intercalate (d.uses.map fun u => s!"i{u.user}.{u.slot}")
  s!"v{v} {d.kind.tag}{dead} {f.valueLabel v} uses=[{uses}]"

/-- The lines that show everything a function holds. -/
def snapshot (f : Function) : List String :=
  let head := s!"func {f.name} params=" ++ numbered "v" f.params
    ++ s!" returns={f.returnsValue} insts={f.insts.size} blocks={f.blocks.size}"
  head :: f.layout.flatMap f.blockSnapshot ++ (List.range f.values.size).map f.valueLine

end Function

end SsaCompiler
