import SsaCompiler.Proofs.Pipeline.TextLabels

/-!
# The labels of the data section

Every global and every string has a label of its own in the data section, made of its name. Declared names are
pairwise distinct, and so are generated names, but a string may be declared under a name that is generated later.
Only then does a label stand for two items.

Selection loads each address once and finds it again by its label. So the register that it takes for the address of
a global or string is loaded from the label of just that global or string.
-/

set_option autoImplicit false

namespace SsaCompiler

/-! ## Distinct labels -/

namespace Module

/-- The data item of a global. -/
def globalItem (global : GlobalVar) : DataItem := .words (globalLabel global.name) global.initialWords

/-- The data item of a string. -/
def stringItem (s : StringConst) : DataItem := .ascii (stringLabel s.name) s.bytes

/-- The labels of the data section. -/
def dataLabels (m : Module) : List String := m.dataItems.map DataItem.label

/-- Globals and strings have labels of their own names. -/
theorem dataLabels_eq (m : Module) : m.dataLabels =
    (m.globals.toList.map (·.name)).map globalLabel ++ (m.strings.toList.map (·.name)).map stringLabel := by
  simp [dataLabels, dataItems, DataItem.label, Function.comp_def]

/-- Globals of different names have different labels. -/
theorem globalLabel_injective : Function.Injective globalLabel := by
  intro a b h
  have hlist := congrArg String.toList h
  simp only [globalLabel, toString, String.toList_append] at hlist
  exact String.toList_injective (List.append_cancel_left hlist)

/-- Strings of different names have different labels. -/
theorem stringLabel_injective : Function.Injective stringLabel := by
  intro a b h
  have hlist := congrArg String.toList h
  simp only [stringLabel, toString, String.toList_append] at hlist
  exact String.toList_injective (List.append_cancel_left hlist)

/-- A global and a string have different labels. -/
theorem globalLabel_ne_stringLabel (a b : String) : globalLabel a ≠ stringLabel b := by
  intro h
  have hlist := congrArg String.toList h
  simp [globalLabel, stringLabel, toString, String.toList_append] at hlist

/-- The labels are distinct exactly if no two globals and no two strings have the same name. -/
theorem nodup_dataLabels_iff (m : Module) : m.dataLabels.Nodup ↔
    (m.globals.toList.map (·.name)).Nodup ∧ (m.strings.toList.map (·.name)).Nodup := by
  rw [dataLabels_eq, List.nodup_append, List.nodup_map_iff globalLabel_injective,
    List.nodup_map_iff stringLabel_injective]
  refine ⟨fun h => ⟨h.1, h.2.1⟩, fun h => ⟨h.1, h.2, ?_⟩⟩
  rintro _ hglobal _ hstring rfl
  obtain ⟨a, -, rfl⟩ := List.mem_map.1 hglobal
  obtain ⟨b, -, hlabel⟩ := List.mem_map.1 hstring
  exact globalLabel_ne_stringLabel a b hlabel.symm

/-- The generated name of a string. -/
def generatedName (k : Nat) : String := s!"_str{k}"

/-- Generated names of different numbers are different. -/
theorem generatedName_injective : Function.Injective generatedName := by
  intro j k h
  have hlist := congrArg String.toList h
  have hchars : ∀ n : Nat, (generatedName n).toList = ['_', 's', 't'] ++ 'r' :: n.repr.toList := by
    intro n
    simp [generatedName, toString, String.toList_append]
  rw [hchars, hchars] at hlist
  exact (append_repr_inj (by decide) hlist).2

variable {m₀ m : Module}

/-- The strings of the bodies come behind the declared ones and have generated names. -/
theorem MoreStrings.names (h : m₀.MoreStrings m) : m.strings.toList.map (·.name) = m₀.strings.toList.map (·.name) ++
      (List.range' m₀.strings.size (m.strings.size - m₀.strings.size)).map generatedName := by
  refine List.ext_getElem? fun k => ?_
  rw [List.getElem?_append, List.getElem?_map, List.getElem?_map, List.getElem?_map, List.length_map,
    Array.length_toList, Array.getElem?_toList, Array.getElem?_toList]
  split
  · rename_i hk
    rw [h.old k hk]
  · rename_i hk
    by_cases hlt : k < m.strings.size
    · have hnew := h.new k _ (Nat.le_of_not_lt hk) (Array.getElem?_eq_getElem hlt)
      rw [Array.getElem?_eq_getElem hlt, List.getElem?_range' (by omega), Option.map_some, hnew, Option.map_some,
        generatedName]
      congr 3
      omega
    · rw [Array.getElem?_eq_none (Nat.le_of_not_lt hlt), List.getElem?_eq_none (by simp; omega)]
      rfl

/-- With the strings of the bodies added, labels are distinct exactly if no declared string has a name that was
generated. -/
theorem MoreStrings.nodup_dataLabels_iff (h : m₀.MoreStrings m) (hapart : m₀.Apart) : m.dataLabels.Nodup ↔
    ∀ s ∈ m₀.strings, ∀ k, m₀.strings.size ≤ k → k < m.strings.size → s.name ≠ generatedName k := by
  obtain ⟨hglobals, hstrings, -⟩ := List.nodup_append.1 hapart.symbols
  have hgenerated : ((List.range' m₀.strings.size (m.strings.size - m₀.strings.size)).map generatedName).Nodup :=
    (List.nodup_map_iff generatedName_injective).2 List.nodup_range'
  rw [Module.nodup_dataLabels_iff, h.globals, and_iff_right hglobals, h.names, List.nodup_append,
    and_iff_right hstrings, and_iff_right hgenerated]
  have hsize := h.size
  constructor
  · intro hne s hs k hle hlt
    refine hne s.name (List.mem_map_of_mem (Array.mem_toList_iff.2 hs)) (generatedName k) (List.mem_map_of_mem ?_)
    exact List.mem_range'_1.2 ⟨hle, by omega⟩
  · intro hne _ hold _ hnew
    obtain ⟨s, hs, rfl⟩ := List.mem_map.1 hold
    obtain ⟨k, hk, rfl⟩ := List.mem_map.1 hnew
    obtain ⟨hle, hlt⟩ := List.mem_range'_1.1 hk
    exact hne s (Array.mem_toList_iff.1 hs) k hle (by omega)

end Module

/-! ## Loaded addresses -/

namespace Selection

/-- The cached addresses are loaded in the entry, where there is room for more in front of the body. -/
structure Cached (s : Selection) : Prop where
  front : s.entryFront ≤ (s.code.instsOf 0).length
  loaded : ∀ label op, s.addresses.lookup label = some op → .loadAddr op label ∈ s.code.instsOf 0

variable {m : Module} {s s' : Selection}

/-- Instructions stay where they are put. -/
theorem Step.sublist (h : Step m s s') (b : Nat) : (s.code.instsOf b).Sublist (s'.code.instsOf b) := by
  cases h with
  | reserve | fresh | name | turn | close => exact .refl _
  | load op label hlabel =>
    rw [instsOf_modifyInsts]
    split
    · exact List.sublist_insertIdx _ _ _
    · exact .refl _
  | add c change hnew hold =>
    rw [instsOf_modifyInsts]
    split
    · exact hold _
    · exact .refl _

/-- A step keeps the cache. -/
theorem Step.cached (h : Step m s s') (hsize : 0 < s.code.blocks.size) (hs : s.Cached) : s'.Cached := by
  have hkept := h.sublist 0
  cases h with
  | reserve | fresh | name | turn => exact ⟨hs.front, hs.loaded⟩
  | close => exact ⟨Nat.le_refl _, hs.loaded⟩
  | add b change hnew hold =>
    exact ⟨hs.front.trans hkept.length_le, fun label op hop => hkept.subset (hs.loaded label op hop)⟩
  | load op label hlabel =>
    have hinsts : (s.code.modifyInsts 0 fun insts => insts.insertIdx s.entryFront (.loadAddr op label)).instsOf 0 =
        (s.code.instsOf 0).insertIdx s.entryFront (.loadAddr op label) := by
      rw [instsOf_modifyInsts, if_pos ⟨rfl, hsize⟩]
    refine ⟨?_, fun l o hlookup => ?_⟩
    · change s.entryFront + 1 ≤ _
      rw [hinsts, List.length_insertIdx_of_le_length hs.front]
      exact Nat.succ_le_succ hs.front
    · change List.lookup l ((label, op) :: s.addresses) = some o at hlookup
      rw [List.lookup_cons] at hlookup
      split at hlookup
      · rename_i hl
        cases hlookup
        rw [hinsts, eq_of_beq hl]
        exact (List.mem_insertIdx hs.front).2 (.inl rfl)
      · exact hkept.subset (hs.loaded l o hlookup)

end Selection

namespace Function

/-- A state of the selection of a function. -/
def Selecting (f : Function) (m : Module) (loops : LoopForest) (s : Selection) : Prop :=
  Relation.ReflTransGen (Selection.Step m) (f.selectionStart loops) s

/-- In the selection of a function with blocks the cached addresses are loaded. -/
theorem Selecting.cached {f : Function} {m : Module} {loops : LoopForest} {s : Selection} (h : f.Selecting m loops s)
    (hblocks : f.layout ≠ []) : 0 < s.code.blocks.size ∧ s.Cached := by
  obtain ⟨-, -, -, hsize, -⟩ := blank_spec f loops.blockDepth f.layout
  have hstart : (f.selectionStart loops).code.blocks.size = f.layout.length := hsize
  induction h with
  | refl => exact ⟨hstart ▸ List.length_pos_iff.2 hblocks, ⟨Nat.zero_le _, fun label op hop => by cases hop⟩⟩
  | tail _ hstep ih => exact ⟨hstep.sameLabels.size ▸ ih.1, hstep.cached ih.1 ih.2⟩

end Function

namespace Selection

/-- A register holds the address of a datum: it is loaded from the label of the datum, now and in every later state. -/
def Holds (m : Module) (s : Selection) (op : Operand) (item : DataItem) : Prop :=
  ∀ s', Relation.ReflTransGen (Step m) s s' → .loadAddr op item.label ∈ s'.code.instsOf 0

/-- What is loaded stays loaded. -/
theorem holds_of_mem {m : Module} {s : Selection} {op : Operand} {item : DataItem}
    (h : .loadAddr op item.label ∈ s.code.instsOf 0) : s.Holds m op item := by
  intro s' hsteps
  induction hsteps with
  | refl => exact h
  | tail _ hstep ih => exact (hstep.sublist 0).subset ih

end Selection

/-- The data item of a value that is the address of one. -/
def Module.datum? (m : Module) : ValueKind → Option DataItem
  | .global g => m.globals[g]?.map Module.globalItem
  | .str s => m.strings[s]?.map Module.stringItem
  | _ => none

namespace Select

open Stateful

variable {ctx : SelectionContext} {loops : LoopForest} {s s' : Selection} {op : Operand} {item : DataItem}

section

variable (hblocks : ctx.func.layout ≠ []) (hs : ctx.func.Selecting ctx.module loops s)

include hblocks hs

/-- The register of a label is loaded from it. -/
theorem cachedAddress_spec {label : String} (hlabel : ctx.module.HasLabel label)
    (h : (cachedAddress label).run s = .ok (op, s')) : .loadAddr op label ∈ s'.code.instsOf 0 := by
  have hs' : ctx.func.Selecting ctx.module loops s' := hs.trans (leads_cachedAddress hlabel h)
  refine (hs'.cached hblocks).2.loaded label op ?_
  have h₁ := of_get_bind h
  split at h₁
  · rename_i found hfound
    cases h₁
    exact hfound
  · obtain ⟨op₁, s₂, hfresh, h₂⟩ := bind_eq_ok h₁
    obtain ⟨⟨⟩, s₃, hmodify, h₃⟩ := bind_eq_ok h₂
    cases h₃
    cases hmodify
    exact List.lookup_cons_self

/-- The register for the address of a string is loaded from the label of the string. -/
theorem holds_stringAddress {id : StringId} (hitem : ctx.module.datum? (.str id) = some item)
    (h : (stringAddress ctx id).run s = .ok (op, s')) : s'.Holds ctx.module op item := by
  obtain ⟨string, s₁, hlift, hcached⟩ := bind_eq_ok h
  obtain ⟨hstring, rfl⟩ := lift_eq_ok hlift
  have hlabel : item.label = stringLabel string.name := by
    unfold Module.string Outcome.ofOption at hstring
    split at hstring
    · rename_i found hfound
      cases hstring
      rw [Module.datum?, hfound] at hitem
      cases hitem
      rfl
    · cases hstring
  refine Selection.holds_of_mem ?_
  rw [hlabel]
  exact cachedAddress_spec hblocks hs (Module.hasLabel_string hstring) hcached

/-- The register for the address of a global or string is loaded from the label of that global or string. -/
theorem holds_plainOperand {v : ValueId} (hitem : ctx.module.datum? (ctx.func.value v).kind = some item)
    (h : (plainOperand ctx v).run s = .ok (op, s')) : s'.Holds ctx.module op item := by
  unfold plainOperand at h
  split at h
  · rename_i c hkind
    rw [hkind] at hitem
    cases hitem
  · rename_i g hkind
    obtain ⟨global, s₁, hlift, hcached⟩ := bind_eq_ok h
    obtain ⟨hglobal, rfl⟩ := lift_eq_ok hlift
    have hlabel : item.label = globalLabel global.name := by
      unfold Module.global Outcome.ofOption at hglobal
      split at hglobal
      · rename_i found hfound
        cases hglobal
        rw [hkind, Module.datum?, hfound] at hitem
        cases hitem
        rfl
      · cases hglobal
    refine Selection.holds_of_mem ?_
    rw [hlabel]
    exact cachedAddress_spec hblocks hs (Module.hasLabel_global hglobal) hcached
  · rename_i id hkind
    rw [hkind] at hitem
    exact holds_stringAddress hblocks hs hitem h
  · rename_i k hkind
    rw [hkind] at hitem
    cases hitem
  · rename_i i hkind
    rw [hkind] at hitem
    cases hitem

end

end Select

/-! ## Modules that were read -/

namespace Module

/-- The data labels of a module that was read are pairwise distinct exactly if no string is declared under a name that
is generated for a string of a body. Then an item is known by its label. In any case selected code loads the
addresses of data items only, and a register for the address of a global or string, as a value or as a piece of a
print, is loaded from the label of that global or string. -/
theorem nodup_dataLabels_parse_iff {text : String} {m : Module} (h : Module.parse text = .ok m) :
    ∃ m₀, Module.declare text = .ok m₀ ∧
      (m.dataLabels.Nodup ↔
        ∀ s ∈ m₀.strings, ∀ k, m₀.strings.size ≤ k → k < m.strings.size → s.name ≠ generatedName k) ∧
      (m.dataLabels.Nodup → ∀ item ∈ m.dataItems, ∀ item' ∈ m.dataItems, item'.label = item.label → item' = item) ∧
      (∀ (f : Function) (loops : LoopForest) (mf : MachineFunction), f.select m loops = .ok mf → mf.LoadsFrom m) ∧
      ∀ (ctx : SelectionContext) (loops : LoopForest) (s s' : Selection) (op : Operand) (item : DataItem),
        ctx.module = m → ctx.func.layout ≠ [] → ctx.func.Selecting m loops s →
        (∀ v, m.datum? (ctx.func.value v).kind = some item → (Select.plainOperand ctx v).run s = .ok (op, s') →
          s'.Holds m op item) ∧
        (∀ id, m.datum? (.str id) = some item → (Select.stringAddress ctx id).run s = .ok (op, s') →
          s'.Holds m op item) := by
  obtain ⟨m₀, hdeclare, hapart, -, hmore⟩ := declare_of_parse h
  refine ⟨m₀, hdeclare, hmore.nodup_dataLabels_iff hapart, ?_, ?_, ?_⟩
  · intro hnodup item hitem item' hitem' hlabel
    exact List.inj_on_of_nodup_map hnodup hitem' hitem hlabel
  · intro f loops mf hselect
    exact (Function.select_spec hselect).2.2.2.2
  · rintro ctx loops s s' op item rfl hblocks hs
    exact ⟨fun v hitem hrun => Select.holds_plainOperand hblocks hs hitem hrun,
      fun id hitem hrun => Select.holds_stringAddress hblocks hs hitem hrun⟩

/-- A string declared under the name that is generated for the text of the print. -/
def nameClash : Module where
  strings := #[.ofLiteral "_str1" "a", .ofLiteral "_str1" "b"]
  functions := #[{
    name := "main"
    returnsValue := false
    insts := #[{ kind := .print [.str 1], operands := [], result := none, block := some 0 },
      { kind := .ret, operands := [], result := none, block := some 0 }]
    blocks := #[{ name := "e", insts := [0, 1] }]
    layout := [0] }]

set_option maxRecDepth 4000 in
/-- The module is read from text, but its two strings have the same label. -/
theorem not_nodup_dataLabels_nameClash :
    Module.parse "string @_str1 = \"a\"\nfunc @main() -> void \x7b\ne:\n print \"b\"\n ret\n\x7d" = .ok nameClash ∧
      ¬ nameClash.dataLabels.Nodup := by
  have hread : Module.parse "string @_str1 = \"a\"\nfunc @main() -> void \x7b\ne:\n print \"b\"\n ret\n\x7d" =
      .ok nameClash := by cbv
  have hdeclare : Module.declare "string @_str1 = \"a\"\nfunc @main() -> void \x7b\ne:\n print \"b\"\n ret\n\x7d" =
      .ok { strings := #[.ofLiteral "_str1" "a"], functions := #[.new "main" 0 false] } := by cbv
  obtain ⟨m₀, hm₀, hiff, -⟩ := nodup_dataLabels_parse_iff hread
  cases hdeclare.symm.trans hm₀
  refine ⟨hread, fun hnodup => ?_⟩
  exact hiff.1 hnodup (.ofLiteral "_str1" "a") (by simp) 1 (by decide) (by decide) (by decide)

end Module

end SsaCompiler
