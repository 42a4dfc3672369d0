import SsaCompiler.Proofs.Text.ReadModules

/-!
# Names of a module that was read

A declaration is refused if its name is taken, so the declared functions have pairwise distinct names, and so
have the declared globals and strings together. Reading the bodies declares nothing, but it adds strings, and
each of them gets a name that is made of its number. That name may be one that a declared string has.
-/

set_option autoImplicit false

namespace SsaCompiler

variable {m : Module}

namespace Module

/-- The names of the functions. -/
def functionNames (m : Module) : List String := m.functions.toList.map (·.name)

/-- The names of the globals and of the strings. -/
def symbolNames (m : Module) : List String := m.globals.toList.map (·.name) ++ m.strings.toList.map (·.name)

/-- No name is declared twice. -/
structure Apart (m : Module) : Prop where
  functions : m.functionNames.Nodup
  symbols : m.symbolNames.Nodup

variable {name : String}

/-- A name that no function has. -/
theorem not_mem_functionNames (h : m.functionByName? name = none) : name ∉ m.functionNames := by
  intro hmem
  obtain ⟨f, hf, rfl⟩ := List.mem_map.1 hmem
  exact absurd (Array.findIdx?_eq_none_iff.1 h f (Array.mem_toList_iff.1 hf)) (by simp)

/-- A free name is not among those of globals and strings. -/
theorem Free.not_mem (h : m.Free name) : name ∉ m.symbolNames := by
  intro hmem
  rcases List.mem_append.1 hmem with hmem | hmem
  · obtain ⟨g, hg, rfl⟩ := List.mem_map.1 hmem
    exact absurd (Array.findIdx?_eq_none_iff.1 h.1 g (Array.mem_toList_iff.1 hg)) (by simp)
  · obtain ⟨s, hs, rfl⟩ := List.mem_map.1 hmem
    exact absurd (Array.findIdx?_eq_none_iff.1 h.2 s (Array.mem_toList_iff.1 hs)) (by simp)

/-- Declaring a global of a free name. -/
theorem Apart.addGlobal (h : m.Apart) (hfree : m.Free name) (words : Nat) (init : List Word) (constant : Bool) :
    (m.addGlobal name words init constant).2.Apart := by
  refine ⟨h.functions, ?_⟩
  have hperm : ((m.addGlobal name words init constant).2.symbolNames).Perm (name :: m.symbolNames) := by
    simp only [Module.addGlobal, symbolNames, Array.toList_push, List.map_append, List.map_cons, List.map_nil,
      List.append_assoc]
    exact List.perm_middle
  exact hperm.nodup_iff.2 (List.nodup_cons.2 ⟨hfree.not_mem, h.symbols⟩)

/-- Declaring a string of a free name. -/
theorem Apart.addNamedString (h : m.Apart) (hfree : m.Free name) (literal : String) :
    (m.addNamedString name literal).2.Apart := by
  refine ⟨h.functions, ?_⟩
  have heq : (m.addNamedString name literal).2.symbolNames = m.symbolNames ++ [name] := by
    simp [Module.addNamedString, symbolNames, StringConst.ofLiteral]
  rw [heq, List.nodup_append_comm]
  exact List.nodup_cons.2 ⟨hfree.not_mem, h.symbols⟩

/-- Declaring a function of a new name. -/
theorem Apart.addFunction (h : m.Apart) {f : Function} (hnew : m.functionByName? f.name = none) :
    (m.addFunction f).2.Apart := by
  refine ⟨?_, h.symbols⟩
  have heq : (m.addFunction f).2.functionNames = m.functionNames ++ [f.name] := by
    simp [Module.addFunction, functionNames]
  rw [heq, List.nodup_append_comm]
  exact List.nodup_cons.2 ⟨not_mem_functionNames hnew, h.functions⟩

end Module

variable {m' : Module}

namespace Source

open LineReader

/-- Declarations keep names apart. -/
theorem apart_declarations {lines : List TokenLine} {sources : List FunctionSource} (hm : m.Apart)
    (h : declarations m lines = .ok (m', sources)) : m'.Apart := by
  refine declarations_keep (fun hdecl hn => ?_) (fun hdecl hn => ?_)
    (fun hs hn => hn.addFunction ((gives_signature _).of_run hs)) hm h
  · obtain ⟨name, words, init, hfree, rfl⟩ := (gives_globalDecl _ _).of_run hdecl
    exact hn.addGlobal hfree words init _
  · obtain ⟨name, literal, hfree, rfl⟩ := (gives_stringDecl _).of_run hdecl
    exact hn.addNamedString hfree literal

end Source

namespace Module

/-- The declarations of a text. -/
def declare (text : String) : Outcome Module := do
  let lines ← Source.tokenLines text
  let (m, _) ← Source.declarations {} lines
  return m

/-- The headings of the functions in order. -/
def headings (m : Module) : List Heading := m.functions.toList.map (·.heading)

/-- Building bodies keeps the headings. -/
theorem Built.headings {id : FuncId} (h : Built Function.BuildStep id m m') : m'.headings = m.headings := by
  refine List.ext_getElem? fun k => ?_
  have hk := h.heading k
  unfold Module.function at hk
  simp only [Module.headings, List.getElem?_map, Array.getElem?_toList]
  by_cases hlt : k < m.functions.size
  · rw [Array.getElem?_eq_getElem hlt, Array.getElem?_eq_getElem (h.size ▸ hlt)]
    rw [Array.getD_eq_getD_getElem?, Array.getD_eq_getD_getElem?, Array.getElem?_eq_getElem hlt,
      Array.getElem?_eq_getElem (h.size ▸ hlt)] at hk
    exact congrArg some hk
  · rw [Array.getElem?_eq_none (Nat.le_of_not_lt hlt), Array.getElem?_eq_none (h.size ▸ Nat.le_of_not_lt hlt)]

variable {text : String}

/-- A module that was read has the functions and symbols that are declared, without a name twice, and more strings. -/
theorem declare_of_parse (h : Module.parse text = .ok m) :
    ∃ m₀, Module.declare text = .ok m₀ ∧ m₀.Apart ∧ m.headings = m₀.headings ∧ m₀.MoreStrings m := by
  obtain ⟨lines, m₀, sources, hlines, hdecl, hkeep⟩ := built_of_parse h
  have hempty : Module.Apart {} := ⟨List.nodup_nil, List.nodup_nil⟩
  obtain ⟨hheadings, hstrings⟩ := hkeep (fun m => m.headings = m₀.headings ∧ m₀.MoreStrings m)
    (fun _ _ _ hbuilt hm => ⟨hbuilt.headings.trans hm.1, hm.2.trans hbuilt.symbols⟩) ⟨rfl, .refl m₀⟩
  refine ⟨m₀, ?_, Source.apart_declarations hempty hdecl, hheadings, hstrings⟩
  unfold declare
  rw [hlines]
  change (Source.declarations {} lines >>= _) = _
  rw [hdecl]
  rfl

/-- The functions of a module that was read have pairwise distinct names. -/
theorem nodup_functionNames_parse (h : Module.parse text = .ok m) : m.functionNames.Nodup := by
  obtain ⟨m₀, -, hapart, hheadings, -⟩ := declare_of_parse h
  have hnames : ∀ n : Module, n.functionNames = n.headings.map (·.name) := fun n => by
    simp [functionNames, Module.headings, Function.heading]
  rw [hnames, hheadings, ← hnames]
  exact hapart.functions

end Module

end SsaCompiler
