import SsaCompiler.Graph.Listing
import SsaCompiler.Ir.Listing
import SsaCompiler.Pipeline.Compile

/-!
# Dumps

A dump shows what the pipeline has made of a module at one of its stages. Dumps are printed in
pipeline order, each once, whatever order they are asked for in.
-/

set_option autoImplicit false

namespace SsaCompiler

/-- A stage that can be shown. -/
inductive Dump
  /-- The module as it was read. -/
  | ir
  /-- The optimized module. -/
  | irOpt
  | rpo
  | dom
  | df
  | loops
  /-- The liveness of the selected code. -/
  | liveness
  /-- The assembly text. -/
  | mips
  deriving DecidableEq, Repr, Inhabited

namespace Dump

/-- All dumps in pipeline order. -/
def all : List Dump := [ir, irOpt, rpo, dom, df, loops, liveness, mips]

/-- The name of a dump on the command line. -/
def name : Dump → String
  | ir => "ir"
  | irOpt => "ir-opt"
  | rpo => "rpo"
  | dom => "dom"
  | df => "df"
  | loops => "loops"
  | liveness => "liveness"
  | mips => "mips"

/-- The dump with a name. -/
def ofName? (name : String) : Option Dump := all.find? fun d => d.name == name

/-- The dump that a flag of a test file asks for. -/
def ofFlag? (flag : String) : Option Dump := all.find? fun d => "--print-" ++ d.name == flag

/-- A listing of each function. -/
def eachFunction (m : Module) (list : Function → Outcome String) : Outcome String := do
  return String.join (← m.functions.toList.mapM list)

/-- The text of a dump of an optimized module. -/
def text (o : Options) (m : Module) : Dump → Compile String
  | ir => return ""
  | irOpt => m.listing
  | rpo => eachFunction m fun f => f.cfg.orderText
  | dom => eachFunction m fun f => f.cfg.dominatorsText
  | df => eachFunction m fun f => f.cfg.frontiersText
  | loops => eachFunction m fun f => f.cfg.loopsText
  | liveness => do
    let functions ← Compile.selectModule m
    let texts ← functions.mapM fun mf => do
      return (← Liveness.ofFunction mf o.registers).listing mf
    return String.join texts
  | mips => do (← Compile.lowerModule o m).text

/-- The texts of the dumps that are wanted. -/
def render (o : Options) (m : Module) (wanted : List Dump) : Compile String := do
  let before ← if wanted.contains ir then m.listing else pure ""
  let m ← Compile.optimizeModule o m
  let texts ← (all.filter wanted.contains).mapM (text o m)
  return before ++ String.join texts

end Dump

end SsaCompiler
