import SsaCompiler.Ir.Listing
import SsaCompiler.Proofs.Text.SpelledNames

/-!
# The lines of a listing

What names a listing of a function defines can be read off its text: the heading defines the parameters, and every other
line that begins with a name and an equals sign defines this name (`Listing.definitions`). A line holds no line feed, as
names are made of name characters; so the lines of an instruction define the name of its extra line, if it has one, and
that of its result, if there is one (`Function.instLines_spec`).
-/

set_option autoImplicit false

namespace SsaCompiler

open Token

/-! ## Reading listings -/

variable {names : List String} {name : String}

namespace Listing

/-- The name that a line defines, if it defines one. -/
def lineNames : List Char → List String
  | ' ' :: ' ' :: '%' :: rest =>
    match rest.dropWhile isNameChar with
    | ' ' :: '=' :: ' ' :: _ => [String.ofList (rest.takeWhile isNameChar)]
    | _ => []
  | _ => []

/-- The names behind the percent signs of a heading. -/
def headingNames : List Char → List String
  | [] => []
  | c :: rest =>
    if c = '%' then String.ofList (rest.takeWhile isNameChar) :: headingNames rest else headingNames rest

/-- The names that the lines of a text define. -/
def bodyNames (text : List Char) : List String := (text.splitOn '\n').flatMap lineNames

/-- The names that the listing of a function defines, its parameters first. -/
def definitions (text : String) : List String :=
  match text.toList.splitOn '\n' with
  | [] => []
  | heading :: body => headingNames heading ++ body.flatMap lineNames

/-- A text without a line feed. -/
abbrev Unbroken (text : String) : Prop := '\n' ∉ text.toList

/-- Whole lines that define names. -/
def Defines (text : List Char) (names : List String) : Prop :=
  ∀ rest, bodyNames (text ++ rest) = names ++ bodyNames rest

/-- Lines that define names once they are indented. -/
def Indented (lines : List String) (names : List String) : Prop :=
  (∀ line ∈ lines, Unbroken line) ∧ lines.flatMap (fun line => lineNames (' ' :: ' ' :: line.toList)) = names

theorem defines_nil : Defines [] [] := fun _ => rfl

theorem Defines.append {text text' : List Char} {names' : List String} (h : Defines text names)
    (h' : Defines text' names') : Defines (text ++ text') (names ++ names') := by
  intro rest
  rw [List.append_assoc, h, h', List.append_assoc]

/-- One line. -/
theorem defines_line {line : List Char} (h : '\n' ∉ line) : Defines (line ++ ['\n']) (lineNames line) := by
  intro rest
  unfold bodyNames
  rw [List.append_assoc, List.singleton_append, List.splitOn_append_cons_self_of_not_mem h, List.flatMap_cons]

/-- Lines one behind the other. -/
theorem defines_lines {lines : List (List Char)} (h : ∀ line ∈ lines, '\n' ∉ line) :
    Defines (lines.flatMap (· ++ ['\n'])) (lines.flatMap lineNames) := by
  induction lines with
  | nil => exact defines_nil
  | cons line rest ih =>
    exact (defines_line (h line List.mem_cons_self)).append (ih fun l hl => h l (List.mem_cons_of_mem _ hl))

/-- A heading and the lines behind it. -/
theorem definitions_eq {text : String} {heading body : List Char} (htext : text.toList = heading ++ '\n' :: body)
    (hheading : '\n' ∉ heading) (hbody : Defines body names) : definitions text = headingNames heading ++ names := by
  unfold definitions
  rw [htext, List.splitOn_append_cons_self_of_not_mem hheading]
  have hnames := hbody []
  rw [List.append_nil] at hnames
  exact congrArg (headingNames heading ++ ·) (hnames.trans (List.append_nil names))

@[simp] theorem not_mem_digits (n : Nat) : '\n' ∉ Nat.toDigits 10 n := fun h =>
  absurd (Nat.isDigit_of_mem_toDigits (by omega) (by omega) h) (by decide)

@[simp] theorem toString_text (text : String) : toString text = text := rfl

/-! ## Names in lines -/

variable {c : Char}

theorem not_mem_of_isName (h : IsName name) (hc : isNameChar c = false) : c ∉ name.toList :=
  fun hmem => by rw [h c hmem] at hc; cases hc

theorem unbroken_of_isName (h : IsName name) : Unbroken name := not_mem_of_isName h (by decide)

/-- A name ends where something else than a name character follows. -/
theorem takeWhile_name (h : IsName name) (hc : isNameChar c = false) (rest : List Char) :
    (name.toList ++ c :: rest).takeWhile isNameChar = name.toList ∧
      (name.toList ++ c :: rest).dropWhile isNameChar = c :: rest := by
  rw [List.takeWhile_append_of_pos h, List.dropWhile_append_of_pos h, List.takeWhile_cons_of_neg (by simp [hc]),
    List.dropWhile_cons_of_neg (by simp [hc]), List.append_nil]
  exact ⟨rfl, rfl⟩

/-- A line that begins with a name and an equals sign. -/
theorem lineNames_name (h : IsName name) (rest : List Char) :
    lineNames (' ' :: ' ' :: '%' :: (name.toList ++ ' ' :: '=' :: ' ' :: rest)) = [name] := by
  obtain ⟨htake, hdrop⟩ := takeWhile_name h (c := ' ') (by decide) ('=' :: ' ' :: rest)
  simp only [lineNames, hdrop, htake, String.ofList_toList]

theorem lineNames_of_ne (h : c ≠ '%') (rest : List Char) : lineNames (' ' :: ' ' :: c :: rest) = [] := by
  unfold lineNames
  split
  · rename_i heq
    exact absurd (List.cons.inj (List.cons.inj (List.cons.inj heq).2).2).1 h
  · rfl

theorem lineNames_of_head (h : c ≠ ' ') (rest : List Char) : lineNames (c :: rest) = [] := by
  unfold lineNames
  split
  · rename_i heq
    exact absurd (List.cons.inj heq).1 h
  · rfl

/-! ## Texts without line feeds -/

theorem unbroken_text (c : Word) : Unbroken (Word.text c) := by
  unfold Word.text
  rw [Int.toString_eq_repr]
  cases c.toInt with
  | ofNat n => simp [Int.repr, Unbroken]
  | negSucc n => simp [Int.repr, Unbroken]

/-- Texts with commas between them. -/
theorem unbroken_intercalate {texts : List String} (h : ∀ text ∈ texts, Unbroken text) :
    Unbroken (", ".intercalate texts) := by
  unfold Unbroken
  rw [String.toList_intercalate]
  induction texts with
  | nil => exact List.not_mem_nil
  | cons text rest ih =>
    have hhead := h text List.mem_cons_self
    have hrest := ih fun t ht => h t (List.mem_cons_of_mem _ ht)
    cases rest with
    | nil => simpa [List.intercalate] using hhead
    | cons text' rest =>
      rw [List.map_cons, List.map_cons, List.intercalate_cons_cons]
      simpa [hhead] using hrest

/-- Texts that are put together one after the other, with commas between them. -/
theorem unbroken_mapM {α : Type} {list : List α} {list' : α → Outcome String}
    (h : ∀ a ∈ list, ∃ text, list' a = .ok text ∧ Unbroken text) :
    ∃ texts, list.mapM list' = .ok texts ∧ Unbroken (", ".intercalate texts) := by
  obtain ⟨texts, htexts⟩ := Outcome.exists_mapM fun a ha => (h a ha).imp fun _ htext => htext.1
  refine ⟨texts, htexts, unbroken_intercalate fun text hmem => ?_⟩
  obtain ⟨a, ha, htext⟩ := Outcome.exists_of_mem_mapM htexts hmem
  obtain ⟨text', htext', hunbroken⟩ := h a ha
  rw [htext] at htext'
  cases htext'
  exact hunbroken

end Listing

open Listing

namespace Function

variable {m : Module} {f : Function}

/-! ## Operands -/

/-- The name of a value in listings, without the percent sign. -/
def localName (f : Function) (v : ValueId) : String := (f.value v).name.getD s!"v{v}"

theorem valueLabel_eq {v : ValueId} (h : ∀ c, (f.value v).kind ≠ .const c) : f.valueLabel v = "%" ++ f.localName v := by
  unfold valueLabel localName
  split
  · rename_i hkind
    exact absurd hkind (h _)
  · rename_i name hname _
    rw [hname]
    rfl
  · rename_i hname _
    rw [hname]
    simp only [toString, Option.getD_none, ← String.append_assoc]
    rfl

theorem isName_localName (hf : f.Spelled) (v : ValueId) : IsName (f.localName v) := by
  have hbase : IsName "v" := by
    simp [IsName, isNameChar, Char.isAlphanum, Char.isAlpha, Char.isLower]
  unfold localName
  cases hname : (f.value v).name with
  | none => exact isName_append_repr hbase v
  | some name => exact hf.values v name hname

theorem unbroken_firstElement {count : Nat} {element : String} (he : Unbroken element) (hname : Unbroken name) :
    Unbroken (firstElement count element name) := by
  unfold firstElement
  simp [Unbroken, he, hname]

theorem unbroken_typeOf (f : Function) (v : ValueId) : Unbroken (f.typeOf v) := by
  unfold typeOf
  repeat' split
  all_goals simp [Unbroken]

/-- What the texts of operands rest on: all names are names, and what is referred to is there. -/
structure Listable (m : Module) (f : Function) : Prop where
  module : m.Spelled
  names : f.Spelled
  linked : f.Linked m.globals.size m.strings.size

variable {i : InstId}

namespace Listable

variable (h : f.Listable m)

include h

theorem string {s : StringId} (hs : s < m.strings.size) : ∃ c, m.string s = .ok c ∧ Unbroken c.name := by
  refine ⟨m.strings[s], ?_, unbroken_of_isName (h.module.strings _ (Array.getElem_mem hs))⟩
  unfold Module.string
  rw [Array.getElem?_eq_getElem hs]
  rfl

theorem functionName (id : FuncId) : Unbroken (m.function id).name := by
  by_cases hid : id < m.functions.size
  · unfold Module.function
    rw [Array.getD_eq_getD_getElem?, Array.getElem?_eq_getElem hid]
    exact unbroken_of_isName (h.module.functions _ (Array.getElem_mem hid))
  · unfold Module.function
    rw [Array.getD_eq_getD_getElem?, Array.getElem?_eq_none (Nat.le_of_not_lt hid)]
    exact List.not_mem_nil

theorem listOperand (v : ValueId) : ∃ text, f.listOperand m v = .ok text ∧ Unbroken text := by
  have hwithin := h.linked.values v
  have hlabel : (∀ c, (f.value v).kind ≠ .const c) → Unbroken (f.valueLabel v) := by
    intro hconst
    have hname := unbroken_of_isName (isName_localName h.names v)
    rw [valueLabel_eq hconst]
    simp [Unbroken, hname]
  unfold Function.listOperand
  cases hkind : (f.value v).kind with
  | const c => exact ⟨_, rfl, unbroken_text c⟩
  | global g =>
    rw [hkind] at hwithin
    have hname := unbroken_of_isName (h.module.globals _ (Array.getElem_mem hwithin))
    have hglobal : m.global g = .ok m.globals[g] := by
      unfold Module.global
      rw [Array.getElem?_eq_getElem hwithin]
      rfl
    refine ⟨_, by dsimp only; rw [hglobal]; rfl, ?_⟩
    split
    · exact unbroken_firstElement (by simp [Unbroken]) hname
    · simp [Unbroken, hname]
  | str s =>
    rw [hkind] at hwithin
    obtain ⟨c, hc, hname⟩ := h.string hwithin
    exact ⟨_, by dsimp only; rw [hc]; rfl, unbroken_firstElement (by simp [Unbroken]) hname⟩
  | inst i | param k => exact ⟨_, rfl, hlabel fun c hc => by rw [hkind] at hc; cases hc⟩

theorem listTyped (v : ValueId) : ∃ text, f.listTyped m v = .ok text ∧ Unbroken text := by
  obtain ⟨text, htext, hunbroken⟩ := h.listOperand v
  have htype := unbroken_typeOf f v
  unfold Function.listTyped
  exact ⟨_, by rw [htext]; rfl, by simp [Unbroken, htype, hunbroken]⟩

theorem listSlot (i : InstId) (slot : Nat) (hslot : slot < (f.operands i).length) :
    ∃ text, f.listSlot m i slot = .ok text ∧ Unbroken text := by
  obtain ⟨text, htext, hunbroken⟩ := h.listOperand (f.operands i)[slot]
  refine ⟨text, ?_, hunbroken⟩
  unfold Function.listSlot operand
  rw [List.getElem?_eq_getElem hslot]
  exact htext

theorem listTypedSlot (i : InstId) (slot : Nat) (hslot : slot < (f.operands i).length) :
    ∃ text, f.listTypedSlot m i slot = .ok text ∧ Unbroken text := by
  obtain ⟨text, htext, hunbroken⟩ := h.listTyped (f.operands i)[slot]
  refine ⟨text, ?_, hunbroken⟩
  unfold Function.listTypedSlot operand
  rw [List.getElem?_eq_getElem hslot]
  exact htext

/-- The line of an address begins with the name of its extra line. -/
theorem addressLine {temp : String} (hslots : 2 ≤ (f.operands i).length) (hunbroken : Unbroken temp)
    (htemp : ∀ tail, lineNames (' ' :: ' ' :: (temp.toList ++ ' ' :: '=' :: ' ' :: tail)) = names) :
    ∃ line, f.addressLine m i temp = .ok line ∧ Unbroken line ∧ lineNames (' ' :: ' ' :: line.toList) = names := by
  obtain ⟨base, hbase, hbaseUnbroken⟩ := h.listSlot i 0 (by omega)
  obtain ⟨index, hindex, hindexUnbroken⟩ := h.listTypedSlot i 1 (by omega)
  unfold Function.addressLine
  rw [hbase, hindex]
  exact ⟨_, rfl, by simp [Unbroken, *], by simp [htemp]⟩

/-- The lines of the pieces of a print define nothing. -/
theorem pieceLines {pieces : List PrintPiece} : ∀ args : List ValueId, (InstKind.print pieces).Within m.strings.size →
      ∃ lines, f.pieceLines m pieces args = .ok lines ∧ Indented lines [] := by
  induction pieces with
  | nil => exact fun _ _ => ⟨[], rfl, fun _ hl => absurd hl List.not_mem_nil, rfl⟩
  | cons piece rest ih =>
    intro args hwithin
    have hrest : (InstKind.print rest).Within m.strings.size := fun s hs => hwithin s (List.mem_cons_of_mem _ hs)
    cases piece with
    | str s =>
      obtain ⟨c, hc, hname⟩ := h.string (hwithin s List.mem_cons_self)
      obtain ⟨lines, hlines, hunbroken, hnames⟩ := ih args hrest
      have haddress : Unbroken (firstElement c.len "i8" c.name) := unbroken_firstElement (by simp [Unbroken]) hname
      unfold Function.pieceLines
      rw [hc, hlines]
      refine ⟨_, rfl, List.forall_mem_cons.2 ⟨by simp [Unbroken, haddress], hunbroken⟩, ?_⟩
      simpa [lineNames_of_ne] using hnames
    | arg =>
      cases args with
      | nil =>
        obtain ⟨lines, hlines, hunbroken, hnames⟩ := ih [] hrest
        unfold Function.pieceLines
        rw [hlines]
        refine ⟨_, rfl, List.forall_mem_cons.2 ⟨by simp [Unbroken], hunbroken⟩, ?_⟩
        simpa [lineNames_of_ne] using hnames
      | cons v args =>
        obtain ⟨value, hvalue, hvalueUnbroken⟩ := h.listTyped v
        obtain ⟨lines, hlines, hunbroken, hnames⟩ := ih args hrest
        unfold Function.pieceLines
        rw [hvalue, hlines]
        refine ⟨_, rfl, List.forall_mem_cons.2 ⟨by simp [Unbroken, hvalueUnbroken], hunbroken⟩, ?_⟩
        simpa [lineNames_of_ne] using hnames

/-- The operands of a phi with their blocks. -/
theorem incoming (e : ValueId × BlockId) : ∃ text, (do
      let value ← f.listOperand m e.1
      return s!"[ {value}, %{f.blockName e.2} ]" : Outcome String) = .ok text ∧ Unbroken text := by
  obtain ⟨value, hvalue, hunbroken⟩ := h.listOperand e.1
  have hblock := unbroken_of_isName (h.names.blocks e.2)
  rw [hvalue]
  exact ⟨_, rfl, by simp [Unbroken, *]⟩

end Listable

/-! ## Instructions -/

/-- Whether the listing names the result of an instruction of this kind, if it has one: it does, but for calls of functions
that return nothing. -/
def namesResult (m : Module) : InstKind → Bool
  | .call (.func id) => (m.function id).returnsValue
  | .call (.builtin b) => b.returnsValue
  | _ => true

/-- The result of an instruction that the listing names. -/
def listedResult? (m : Module) (f : Function) (i : InstId) : Option ValueId :=
  if namesResult m (f.kind i) then f.result? i else none

/-- A line that begins with the text of a result defines its name. -/
theorem lineNames_result (hs : f.Sound) (hf : f.Spelled) (i : InstId) {result : String}
    (hresult : (match f.result? i with | some r => f.valueLabel r | none => "") = result) :
    Unbroken result ∧ ∀ tail, lineNames (' ' :: ' ' :: (result.toList ++ ' ' :: '=' :: ' ' :: tail)) =
      ((f.result? i).map f.localName).toList := by
  subst hresult
  cases hr : f.result? i with
  | none => exact ⟨by simp [Unbroken], fun tail => lineNames_of_ne (by decide) _⟩
  | some r =>
    have hname := isName_localName hf r
    have hlabel : f.valueLabel r = "%" ++ f.localName r := valueLabel_eq fun c hc => by
      rw [(hs.kind_of_result i r hr).2] at hc
      cases hc
    have hunbroken := unbroken_of_isName hname
    dsimp only
    rw [hlabel]
    refine ⟨by simp [Unbroken, hunbroken], fun tail => ?_⟩
    rw [String.toList_append]
    exact lineNames_name hname tail

/-- The lines of an instruction. -/
theorem instLines_spec (h : f.Listable m) (hs : f.Sound) {b : BlockId} (hi : i ∈ f.instsOf b) (hname : IsName name) :
    ∃ lines, f.instLines m i ("%" ++ name) = .ok lines ∧
      Indented lines ((if needsTemp (f.kind i) then [name] else []) ++ ((f.listedResult? m i).map f.localName).toList) := by
  have hfits := hs.fits b i hi
  have hwithin := h.linked.insts i
  have htemp : ∀ tail, lineNames (' ' :: ' ' :: (("%" ++ name).toList ++ ' ' :: '=' :: ' ' :: tail)) = [name] := by
    intro tail
    rw [String.toList_append]
    exact lineNames_name hname tail
  have htempUnbroken : Unbroken ("%" ++ name) := by
    have hunbroken := unbroken_of_isName hname
    simp [Unbroken, hunbroken]
  have hblock : ∀ c, Unbroken (f.blockName c) := fun c => unbroken_of_isName (h.names.blocks c)
  generalize "%" ++ name = temp at htemp htempUnbroken
  unfold instLines listedResult?
  extract_lets result
  obtain ⟨hresultUnbroken, hresult⟩ := @lineNames_result f hs h.names i result rfl
  clear_value result
  cases hkind : f.kind i with
  | binary op =>
    rw [hkind] at hfits
    have hslots : (f.operands i).length = 2 := by simpa [InstKind.fits] using hfits
    obtain ⟨l, hl, hlUnbroken⟩ := h.listTypedSlot i 0 (by omega)
    obtain ⟨r, hr, hrUnbroken⟩ := h.listSlot i 1 (by omega)
    dsimp only
    rw [hl, hr]
    by_cases hc : op.isCompare
    · have hcond : Unbroken (conditionName op) := by cases op <;> simp [Unbroken, conditionName]
      refine ⟨_, if_pos hc, ?_⟩
      simp [Indented, Unbroken, needsTemp, namesResult, *]
    · have harith : Unbroken (arithmeticName op) := by cases op <;> simp [Unbroken, arithmeticName, BinaryOp.mnemonic]
      refine ⟨_, if_neg hc, ?_⟩
      simp [Indented, Unbroken, needsTemp, namesResult, *]
  | branch t e =>
    have hr := hs.result?_eq_none (i := i) (by rw [hkind]; rfl)
    rw [hkind] at hfits
    have hslots : (f.operands i).length = 1 := by simpa [InstKind.fits] using hfits
    obtain ⟨cond, hcond, hcondUnbroken⟩ := h.listTypedSlot i 0 (by omega)
    have ht := hblock t
    have he := hblock e
    dsimp only
    rw [hcond]
    refine ⟨_, rfl, ?_⟩
    simp [Indented, Unbroken, needsTemp, namesResult, lineNames_of_ne, *]
  | jump t =>
    have hr := hs.result?_eq_none (i := i) (by rw [hkind]; rfl)
    have ht := hblock t
    refine ⟨_, rfl, ?_⟩
    simp [Indented, Unbroken, needsTemp, namesResult, lineNames_of_ne, *]
  | ret =>
    have hr := hs.result?_eq_none (i := i) (by rw [hkind]; rfl)
    dsimp only
    split
    · rename_i v hv
      obtain ⟨value, hvalue, hvalueUnbroken⟩ := h.listTyped v
      rw [hvalue]
      refine ⟨_, rfl, ?_⟩
      simp [Indented, Unbroken, needsTemp, namesResult, lineNames_of_ne, *]
    · refine ⟨_, rfl, ?_⟩
      simp [Indented, Unbroken, needsTemp, namesResult, lineNames_of_ne, *]
  | gep multiplier =>
    rw [hkind] at hfits
    have hslots : (f.operands i).length = 2 := by simpa [InstKind.fits] using hfits
    obtain ⟨base, hbase, hbaseUnbroken⟩ := h.listSlot i 0 (by omega)
    obtain ⟨index, hindex, hindexUnbroken⟩ := h.listTypedSlot i 1 (by omega)
    dsimp only
    rw [hbase, hindex]
    by_cases hone : multiplier = 1
    · refine ⟨_, if_pos hone, ?_⟩
      simp [Indented, Unbroken, needsTemp, namesResult, *]
    · have hscale := unbroken_text multiplier
      refine ⟨_, if_neg hone, ?_⟩
      simp [Indented, Unbroken, needsTemp, namesResult, *]
  | load =>
    rw [hkind] at hfits
    have hslots : (f.operands i).length = 2 := by simpa [InstKind.fits] using hfits
    obtain ⟨address, haddress, haddressUnbroken, hnames⟩ := h.addressLine (i := i) (by omega) htempUnbroken htemp
    dsimp only
    rw [haddress]
    refine ⟨_, rfl, ?_⟩
    simp [Indented, Unbroken, needsTemp, namesResult, *]
  | store =>
    have hr := hs.result?_eq_none (i := i) (by rw [hkind]; rfl)
    rw [hkind] at hfits
    have hslots : (f.operands i).length = 3 := by simpa [InstKind.fits] using hfits
    obtain ⟨address, haddress, haddressUnbroken, hnames⟩ := h.addressLine (i := i) (by omega) htempUnbroken htemp
    obtain ⟨data, hdata, hdataUnbroken⟩ := h.listTypedSlot i 2 (by omega)
    dsimp only
    rw [haddress, hdata]
    refine ⟨_, rfl, ?_⟩
    simp [Indented, Unbroken, needsTemp, namesResult, lineNames_of_ne, *]
  | call callee =>
    obtain ⟨args, hargs, hargsUnbroken⟩ := unbroken_mapM fun v (_ : v ∈ f.operands i) => h.listTyped v
    cases callee with
    | func id =>
      have hcallee := h.functionName id
      dsimp only
      rw [hargs]
      refine ⟨_, rfl, ?_⟩
      generalize ", ".intercalate args = list at hargsUnbroken ⊢
      by_cases hreturns : (m.function id).returnsValue = true
      · simp [Indented, Unbroken, needsTemp, namesResult, *]
      · simp [Indented, Unbroken, needsTemp, namesResult, lineNames_of_ne, *]
    | builtin c =>
      dsimp only
      rw [hargs]
      refine ⟨_, rfl, ?_⟩
      generalize ", ".intercalate args = list at hargsUnbroken ⊢
      cases c <;> simp [Indented, Unbroken, needsTemp, namesResult, lineNames_of_ne, Builtin.name, Builtin.returnsValue, *]
  | alloca words =>
    dsimp only
    by_cases hone : words = 1
    · refine ⟨_, if_pos hone, ?_⟩
      simp [Indented, Unbroken, needsTemp, namesResult, *]
    · refine ⟨_, if_neg hone, ?_⟩
      simp [Indented, Unbroken, needsTemp, namesResult, *]
  | phi =>
    obtain ⟨incoming, hincoming, hincomingUnbroken⟩ :=
      unbroken_mapM fun e (_ : e ∈ (f.operands i).zip (f.preds ((f.blockOf? i).getD (f.layout.headD 0)))) => h.incoming e
    dsimp only
    rw [hincoming]
    refine ⟨_, rfl, ?_⟩
    generalize ", ".intercalate incoming = list at hincomingUnbroken ⊢
    simp [Indented, Unbroken, needsTemp, namesResult, *]
  | print pieces =>
    have hr := hs.result?_eq_none (i := i) (by rw [hkind]; rfl)
    rw [hkind] at hwithin
    obtain ⟨lines, hlines, hindented⟩ := h.pieceLines (f.operands i) hwithin
    refine ⟨lines, hlines, ?_⟩
    simpa [needsTemp, namesResult, hr] using hindented

end Function

end SsaCompiler
