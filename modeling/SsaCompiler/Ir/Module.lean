import SsaCompiler.Ir.Edit
import SsaCompiler.Ir.StringConst

/-!
# Modules

A module holds functions, global variables and string constants. Each of the three has its own
numbers and its own names.
-/

set_option autoImplicit false

namespace SsaCompiler

/-- A global variable. -/
structure GlobalVar where
  name : String
  /-- The size in words. -/
  words : Nat
  /-- The first words; the others are zero. -/
  init : List Word
  constant : Bool
  deriving Repr, Inhabited

namespace GlobalVar

/-- Whether the variable has more than one word. -/
def isArray (g : GlobalVar) : Bool := 1 < g.words

/-- All words of the variable at the start. -/
def initialWords (g : GlobalVar) : List Word :=
  g.init.take g.words ++ List.replicate (g.words - g.init.length) 0

end GlobalVar

/-- A module. -/
structure Module where
  functions : Array Function := #[]
  globals : Array GlobalVar := #[]
  strings : Array StringConst := #[]
  deriving Repr, Inhabited

namespace Module

/-- The module with a function added, and its number. -/
def addFunction (m : Module) (f : Function) : FuncId × Module :=
  (m.functions.size, { m with functions := m.functions.push f })

/-- The record of a function. -/
def function (m : Module) (id : FuncId) : Function := m.functions.getD id default

/-- The function with a name. -/
def functionByName? (m : Module) (name : String) : Option FuncId :=
  m.functions.findIdx? fun f => f.name == name

/-- The functions that call `callee`. -/
def callersOf (m : Module) (callee : FuncId) : List FuncId :=
  (List.range m.functions.size).filter fun id => (m.function id).callees.contains callee

/-- The module with a global variable of at least one word added, and its number. -/
def addGlobal (m : Module) (name : String) (words : Nat) (init : List Word) (constant : Bool) :
    GlobalId × Module :=
  (m.globals.size,
    { m with globals := m.globals.push { name, words := max words 1, init, constant } })

/-- The global variable with a name. -/
def globalByName? (m : Module) (name : String) : Option GlobalId :=
  m.globals.findIdx? fun g => g.name == name

/-- A global variable, which must exist. -/
def global (m : Module) (g : GlobalId) : Outcome GlobalVar := Outcome.ofOption m.globals[g]?

/-- The module with a string literal entered, and its number. Literals of equal text share one
constant; a new constant is named by its number. -/
def addString (m : Module) (literal : String) : StringId × Module :=
  let s := StringConst.ofLiteral "" literal
  match m.strings.findIdx? fun t => t.text == s.text with
  | some id => (id, m)
  | none =>
    let id := m.strings.size
    (id, { m with strings := m.strings.push { s with name := s!"_str{id}" } })

/-- The module with a string constant of its own name added, and its number. -/
def addNamedString (m : Module) (name literal : String) : StringId × Module :=
  (m.strings.size, { m with strings := m.strings.push (StringConst.ofLiteral name literal) })

/-- The string constant with a name. -/
def stringByName? (m : Module) (name : String) : Option StringId :=
  m.strings.findIdx? fun s => s.name == name

/-- A string constant, which must exist. -/
def string (m : Module) (s : StringId) : Outcome StringConst := Outcome.ofOption m.strings[s]?

/-- The numbers of the functions, that of `main` first. -/
def functionOrder (m : Module) : List FuncId :=
  let isMain := fun id => (m.function id).name == "main"
  let ids := List.range m.functions.size
  ids.filter isMain ++ ids.filter fun id => !isMain id

end Module

/-- A change of a module that gives a result or fails. -/
abbrev ModuleEdit := ExceptT Failure (StateM Module)

namespace ModuleEdit

/-- Ends with a crash; some crashes have a text. -/
def crash {α : Type} (text : Option String) : ModuleEdit α := throw (.crash text)

/-- Edits a function of the module. The module keeps the changes even when the edit fails. -/
def editFunction {α : Type} (id : FuncId) (edit : Edit α) : ModuleEdit α := do
  match (← get).functions[id]? with
  | none => crash none
  | some f =>
    let (result, f') := edit.run f
    modify fun m => { m with functions := m.functions.setIfInBounds id f' }
    match result with
    | .ok a => pure a
    | .error e => throw e

/-- The first number of parameters that has no room: a list of them takes four bytes each, and no
list takes more than a signed 64-bit count of bytes. -/
def paramLimit : Nat := 0x2000000000000000

/-- Adds a function without blocks and gives its number. Too many parameters are a crash. -/
def newFunction (name : String) (paramCount : Nat) (returnsValue : Bool) : ModuleEdit FuncId :=
  if paramCount < paramLimit then
    modifyGet fun m => m.addFunction (Function.new name paramCount returnsValue)
  else crash (some "capacity overflow")

/-- Enters a string literal and gives its number. -/
def addString (literal : String) : ModuleEdit StringId := modifyGet fun m => m.addString literal

end ModuleEdit

end SsaCompiler
