import SsaCompiler.Proofs.Ir.ListingLines
import SsaCompiler.Proofs.Ir.PromotedSlots

/-!
# The names of a listing

The listing of a function defines its parameters, the results of its instructions and the names of its extra lines, and
nothing else: read off the text, the names are those of the listed values and the numbers of extra lines, in some order
(`Function.listing_spec`).
-/

set_option autoImplicit false

namespace SsaCompiler

open Token Listing

namespace Listing

/-- Texts with empty lines between them. -/
theorem defines_intercalate {texts : List String} {namess : List (List String)}
    (h : List.Forall₂ (fun text names => Defines text.toList names) texts namess) :
    Defines ("\n".intercalate texts).toList namess.flatten := by
  rw [String.toList_intercalate]
  induction h with
  | nil => exact defines_nil
  | cons hfirst hrest ih =>
    cases hrest with
    | nil => simpa [List.intercalate] using hfirst
    | cons hsecond hmore =>
      rw [List.map_cons, List.map_cons, List.intercalate_cons_cons, List.flatten_cons]
      have hgap : Defines ['\n'] [] := @defines_line [] List.not_mem_nil
      have hall := (hfirst.append hgap).append ih
      rwa [List.append_nil] at hall

variable {names : List String}

/-- Lines that are indented. -/
theorem Indented.defines {lines : List String} (h : Indented lines names) :
    Defines ((lines.map fun line => s!"  {line}\n").flatMap String.toList) names := by
  have hlines := @defines_lines (lines.map fun line => ' ' :: ' ' :: line.toList) fun line hline => by
    obtain ⟨text, htext, rfl⟩ := List.mem_map.1 hline
    have hunbroken := h.1 text htext
    simpa using hunbroken
  rw [List.flatMap_map, List.flatMap_map] at hlines
  rw [List.flatMap_map, ← h.2]
  simpa using hlines

/-- A part of a heading without a percent sign. -/
theorem headingNames_append {part : List Char} (h : '%' ∉ part) (rest : List Char) :
    headingNames (part ++ rest) = headingNames rest := by
  induction part with
  | nil => rfl
  | cons c part ih =>
    rw [List.mem_cons, not_or] at h
    rw [List.cons_append, headingNames, if_neg (Ne.symm h.1), ih h.2]

/-- A name in a heading. -/
theorem headingNames_name {name : String} (h : IsName name) {c : Char} (hc : isNameChar c = false) (rest : List Char) :
    headingNames ('%' :: (name.toList ++ c :: rest)) = name :: headingNames (c :: rest) := by
  rw [headingNames, if_pos rfl, (takeWhile_name h hc rest).1, String.ofList_toList,
    headingNames_append (not_mem_of_isName h (by decide))]

/-- Names in a heading, each with its type, with commas between them. -/
theorem headingNames_intercalate (h : ∀ name ∈ names, IsName name) (rest : List Char) :
    headingNames ([',', ' '].intercalate (names.map fun name => 'i' :: '3' :: '2' :: ' ' :: '%' :: name.toList) ++
      ')' :: rest) = names ++ headingNames (')' :: rest) := by
  induction names with
  | nil => rfl
  | cons name names ih =>
    have hrest := ih fun n hn => h n (List.mem_cons_of_mem _ hn)
    have hname : ∀ {c : Char} (hc : isNameChar c = false) (tail : List Char),
        headingNames ('i' :: '3' :: '2' :: ' ' :: '%' :: (name.toList ++ c :: tail)) = name :: headingNames (c :: tail) :=
      fun hc tail => (@headingNames_append ['i', '3', '2', ' '] (by simp) _).trans
        (headingNames_name (h name List.mem_cons_self) hc tail)
    cases names with
    | nil => simpa [List.intercalate] using hname (c := ')') (by decide) rest
    | cons next names =>
      rw [List.map_cons, List.map_cons, List.intercalate_cons_cons, List.append_assoc, List.append_assoc]
      rw [List.map_cons] at hrest
      refine (hname (c := ',') (by decide) _).trans (congrArg (name :: ·) ?_)
      exact (@headingNames_append [',', ' '] (by simp) _).trans hrest

/-- The names that the text of a listing defines: those of the parameters and those of the lines in its body. -/
theorem definitions_listing {type name body : String} {params : List String} (htype : IsName type)
    (hname : IsName name) (hparams : ∀ param ∈ params, IsName param) (hbody : Defines body.toList names)
    {list : String} (hlist : ", ".intercalate (params.map fun param => "i32 %" ++ param) = list) :
    definitions (s!"define dso_local {type} @{name}({list}) \x7b\n" ++ body ++ "\x7d\n") = params ++ names := by
  have hunbroken : Unbroken list := hlist ▸ unbroken_intercalate fun text htext => by
    obtain ⟨param, hparam, rfl⟩ := List.mem_map.1 htext
    have hplain := unbroken_of_isName (hparams param hparam)
    simp [Unbroken, hplain]
  have htexts : list.toList = [',', ' '].intercalate (params.map fun param => 'i' :: '3' :: '2' :: ' ' :: '%' :: param.toList) := by
    rw [← hlist, String.toList_intercalate, List.map_map]
    simp [Function.comp_def]
  have hopening : '%' ∉ (s!"define dso_local {type} @{name}(").toList := by
    have hplain := not_mem_of_isName htype (c := '%') (by decide)
    have hplain' := not_mem_of_isName hname (c := '%') (by decide)
    simp [hplain, hplain']
  have hheading : headingNames ((s!"define dso_local {type} @{name}(").toList ++ (list.toList ++ [')', ' ', '\x7b'])) = params := by
    rw [headingNames_append hopening, htexts, headingNames_intercalate hparams]
    exact List.append_nil _
  have hend : Defines ['\x7d', '\n'] [] := @defines_line ['\x7d'] (by decide)
  have hplain := unbroken_of_isName htype
  have hplain' := unbroken_of_isName hname
  have hdefinitions := @definitions_eq (names ++ []) (s!"define dso_local {type} @{name}({list}) \x7b\n" ++ body ++ "\x7d\n")
    ((s!"define dso_local {type} @{name}(").toList ++ (list.toList ++ [')', ' ', '\x7b'])) (body.toList ++ ['\x7d', '\n'])
    (by simp) (by simp [hplain, hplain', hunbroken]) (hbody.append hend)
  rw [hdefinitions, hheading, List.append_nil]

end Listing

namespace Function

variable {m : Module} {f : Function}

/-- The name of an extra line. -/
def extraName (k : Nat) : String := s!"t{k}"

theorem isName_extraName (k : Nat) : IsName (extraName k) := by
  have hbase : IsName "t" := by
    simp [IsName, isNameChar, Char.isAlphanum, Char.isAlpha, Char.isLower]
  exact isName_append_repr hbase k

/-- The number of extra lines that instructions need. -/
def extraLines (f : Function) (insts : List InstId) : Nat := insts.countP fun i => needsTemp (f.kind i)

/-- The names that instructions define if their extra names are numbered from `next` on. -/
def instNames (m : Module) (f : Function) (insts : List InstId) (next : Nat) : List String :=
  (insts.filterMap (f.listedResult? m)).map f.localName ++ (List.range' next (f.extraLines insts)).map extraName

theorem perm_instNames (insts insts' : List InstId) (next : Nat) :
    (f.instNames m insts next ++ f.instNames m insts' (next + f.extraLines insts)).Perm
      (f.instNames m (insts ++ insts') next) := by
  unfold instNames extraLines
  rw [List.filterMap_append, List.map_append, List.countP_append, ← List.range'_append_1, List.map_append]
  simp only [List.append_assoc]
  refine List.Perm.append_left _ ?_
  simp only [← List.append_assoc]
  exact List.Perm.append_right _ List.perm_append_comm

/-- The names of the lines of one instruction. -/
theorem perm_instNames_singleton (i : InstId) (next : Nat) :
    ((if needsTemp (f.kind i) then [extraName next] else []) ++ ((f.listedResult? m i).map f.localName).toList).Perm
      (f.instNames m [i] next) := by
  refine List.perm_append_comm.trans (.of_eq ?_)
  unfold instNames extraLines
  rw [List.countP_singleton]
  congr 1
  · cases hr : f.listedResult? m i <;> simp [hr]
  · split <;> rfl

/-- The line that opens a block defines nothing. -/
theorem defines_blockHeading (h : f.Listable m) (b : BlockId) : Defines (f.blockHeading b).toList [] := by
  have hname := h.names.blocks b
  have hpreds : Unbroken (", ".intercalate ((f.preds b).map fun p => s!"%{f.blockName p}")) := by
    refine unbroken_intercalate fun text htext => ?_
    obtain ⟨p, -, rfl⟩ := List.mem_map.1 htext
    have hp := unbroken_of_isName (h.names.blocks p)
    simp [Unbroken, hp]
  have hhead : ∀ rest, lineNames ((f.blockName b).toList ++ ':' :: rest) = [] := by
    intro rest
    cases hlist : (f.blockName b).toList with
    | nil => exact lineNames_of_head (by decide) _
    | cons c more =>
      refine lineNames_of_head (fun hc => ?_) _
      have hchar := hname c (hlist ▸ List.mem_cons_self)
      rw [hc] at hchar
      cases hchar
  have hunbroken := unbroken_of_isName hname
  have hline : ∀ rest, '\n' ∉ rest → Defines ((f.blockName b).toList ++ ':' :: rest ++ ['\n']) [] := fun rest hrest => by
    have hdefines := @defines_line ((f.blockName b).toList ++ ':' :: rest) (by simp [hunbroken, hrest])
    rwa [hhead] at hdefines
  unfold blockHeading
  generalize ", ".intercalate ((f.preds b).map fun p => s!"%{f.blockName p}") = preds at hpreds ⊢
  dsimp only
  split
  · simpa using hline [] List.not_mem_nil
  · simpa using hline ("                                    ; preds = " ++ preds).toList (by simp [hpreds])

section Blocks

variable (h : f.Listable m) (hs : f.Sound)

include h hs

/-- The lines of instructions. -/
theorem blockLines_spec (insts : List InstId) : ∀ next : Nat, (∀ i ∈ insts, ∃ b, i ∈ f.instsOf b) →
    ∃ lines names, f.blockLines m insts next = .ok (lines, next + f.extraLines insts) ∧
      Defines (lines.flatMap String.toList) names ∧ names.Perm (f.instNames m insts next) := by
  induction insts with
  | nil => exact fun _ _ => ⟨[], [], rfl, defines_nil, .refl _⟩
  | cons i rest ih =>
    intro next hplaced
    obtain ⟨b, hi⟩ := hplaced i List.mem_cons_self
    obtain ⟨lines, hlines, hindented⟩ := instLines_spec h hs hi (isName_extraName next)
    have hextra : f.extraLines (i :: rest) = f.extraLines [i] + f.extraLines rest := @List.countP_append _ _ [i] rest
    have hnext : (if needsTemp (f.kind i) then next + 1 else next) = next + f.extraLines [i] := by
      unfold extraLines
      rw [List.countP_singleton]
      split <;> rfl
    obtain ⟨more, names, hmore, hdefines, hperm⟩ := ih (next + f.extraLines [i]) fun j hj =>
      hplaced j (List.mem_cons_of_mem _ hj)
    have htemp : s!"%t{next}" = "%" ++ extraName next := by
      simp only [extraName, ← String.append_assoc]
      rfl
    refine ⟨(lines.map fun line => s!"  {line}\n") ++ more, _, ?_, ?_,
      ((perm_instNames_singleton i next).append hperm).trans (perm_instNames [i] rest next)⟩
    · unfold blockLines
      rw [htemp, hlines, hnext]
      change (do let p ← f.blockLines m rest (next + f.extraLines [i]); pure (_ ++ p.1, p.2)) = _
      rw [hmore, hextra, Nat.add_assoc]
      rfl
    · rw [List.flatMap_append]
      exact hindented.defines.append hdefines

/-- The texts of blocks. -/
theorem blocksText_spec (blocks : List BlockId) : ∀ next : Nat, ∃ texts namess, f.blocksText m blocks next = .ok texts ∧
    List.Forall₂ (fun text names => Defines text.toList names) texts namess ∧
      namess.flatten.Perm (f.instNames m (blocks.flatMap f.instsOf) next) := by
  induction blocks with
  | nil => exact fun _ => ⟨[], [], rfl, .nil, .refl _⟩
  | cons b rest ih =>
    intro next
    obtain ⟨lines, names, hlines, hdefines, hperm⟩ := blockLines_spec h hs (f.instsOf b) next fun i hi => ⟨b, hi⟩
    obtain ⟨texts, namess, htexts, hall, hperms⟩ := ih (next + f.extraLines (f.instsOf b))
    refine ⟨(f.blockHeading b ++ String.join lines) :: texts, names :: namess, ?_, .cons ?_ hall, ?_⟩
    · unfold blocksText
      rw [hlines]
      change (do let more ← f.blocksText m rest (next + f.extraLines (f.instsOf b)); pure (_ :: more)) = _
      rw [htexts]
      rfl
    · rw [String.toList_append, String.toList_join]
      exact (defines_blockHeading h b).append hdefines
    · rw [List.flatten_cons, List.flatMap_cons]
      exact (hperm.append hperms).trans (perm_instNames _ _ next)

end Blocks

/-- The values that the listing of a function names: its parameters and the results of its instructions. -/
def listed (m : Module) (f : Function) : List ValueId := f.params ++ f.placedInsts.filterMap (f.listedResult? m)

/-- What the listing of a function defines. -/
theorem listing_spec (h : f.Listable m) (hs : f.Sound) (hh : f.Headed) (hname : IsName f.name) :
    ∃ dump, f.listing m = .ok dump ∧ (definitions dump).Perm
      ((f.listed m).map f.localName ++ (List.range (f.extraLines f.placedInsts)).map extraName) := by
  obtain ⟨texts, namess, htexts, hall, hperm⟩ := blocksText_spec h hs f.layout 0
  have hlabels : (f.params.map fun p => s!"i32 {f.valueLabel p}") =
      (f.params.map f.localName).map fun param => "i32 %" ++ param := by
    rw [List.map_map]
    refine List.map_congr_left fun v hv => ?_
    obtain ⟨k, hk⟩ := hh.kind hv
    rw [valueLabel_eq fun c hc => by rw [hk] at hc; cases hc]
    simp only [Function.comp_apply, toString_text, ← String.append_assoc]
    rfl
  have htype : IsName (if f.returnsValue then "i32" else "void") := by
    split <;> simp [IsName, isNameChar, Char.isAlphanum, Char.isAlpha, Char.isUpper, Char.isLower, Char.isDigit]
  have hparams : ∀ param ∈ f.params.map f.localName, IsName param := fun param hparam => by
    obtain ⟨v, -, rfl⟩ := List.mem_map.1 hparam
    exact isName_localName h.names v
  unfold listing
  rw [htexts]
  refine ⟨_, rfl, ?_⟩
  rw [definitions_listing htype hname hparams (defines_intercalate hall) (congrArg _ hlabels.symm)]
  refine (hperm.append_left _).trans (.of_eq ?_)
  unfold instNames listed placedInsts
  rw [List.map_append, List.append_assoc, List.range_eq_range']

end Function

end SsaCompiler
