import SsaCompiler.Proofs.Text.LocatedFaults
import SsaCompiler.Proofs.Text.PhiOrder

/-!
# How names are spelled

A name of a text is a word of name characters, and what is read off a text gets its names from there: the globals, the
declared strings, the functions, their blocks and their values. Only the strings of prints are named otherwise, by their
numbers. Within a function no two values have one name (`Module.spelled_parse`).
-/

set_option autoImplicit false

namespace SsaCompiler

open Edits Stateful

/-! ## Tokens -/

namespace Token

/-- A text of characters that may stand in a name. -/
def IsName (name : String) : Prop := ∀ c ∈ name.toList, isNameChar c = true

/-- The names in a token are made of name characters. -/
def Spelled : Token → Prop
  | ident name | localName name | symbol name | block name => IsName name
  | int _ | str _ | arrow | punct _ => True

theorem isName_takeWhile (rest : List Char) : IsName (String.ofList (rest.takeWhile isNameChar)) := by
  intro c hc
  rw [String.toList_ofList] at hc
  exact List.mem_takeWhile_imp hc

theorem spelled_named {sigil : Char} {name : String} (h : IsName name) : (named sigil name).Spelled := by
  unfold named
  split
  · exact h
  · split <;> exact h

/-- The names in the tokens of a line are made of name characters. -/
theorem spelled_scan (line : List Char) : ∀ tokens, scan line = .ok tokens → ∀ t ∈ tokens, t.Spelled := by
  have hnil : ∀ tokens, (pure [] : Except TextFault (List Token)) = .ok tokens → ∀ t ∈ tokens, t.Spelled := by
    intro tokens h
    cases h
    exact List.forall_mem_nil _
  have hcons : ∀ {t : Token} {rest : List Char}, t.Spelled → (∀ tokens, scan rest = .ok tokens → ∀ t ∈ tokens, t.Spelled) →
      ∀ tokens, (do return t :: (← scan rest)) = .ok tokens → ∀ t ∈ tokens, t.Spelled := by
    intro t rest ht hrest tokens h
    cases hscan : scan rest with
    | error e =>
      rw [hscan] at h
      cases h
    | ok more =>
      rw [hscan] at h
      cases h
      exact List.forall_mem_cons.2 ⟨ht, hrest more hscan⟩
  fun_induction scan line with
  | case1 | case2 => exact hnil
  | case3 _ _ _ _ ih => exact ih
  | case4 | case6 | case9 | case13 => exact fun _ h => by cases h
  | case5 c rest _ _ _ _ _ ih => exact hcons (spelled_named (isName_takeWhile rest)) ih
  | case7 _ _ _ _ _ _ ih | case8 _ _ _ _ _ _ _ ih | case10 _ _ _ _ _ _ _ _ _ _ _ ih | case11 _ _ _ _ _ _ _ _ _ ih =>
    exact hcons trivial ih
  | case12 c rest _ _ _ _ _ _ _ hfirst _ ih =>
    refine hcons (fun d hd => ?_) ih
    rw [String.toList_ofList] at hd
    rcases List.mem_cons.1 hd with rfl | hd
    · exact ByteScan.isNameChar_of_start hfirst
    · exact List.mem_takeWhile_imp hd

/-- A numbered name. -/
theorem isName_append_repr {base : String} (h : IsName base) (k : Nat) : IsName (base ++ k.repr) := by
  intro c hc
  rw [String.toList_append] at hc
  rcases List.mem_append.1 hc with hc | hc
  · exact h c hc
  · rw [Nat.toList_repr] at hc
    unfold isNameChar Char.isAlphanum
    rw [Nat.isDigit_of_mem_toDigits (by omega) (by omega) hc, Bool.or_true]
    rfl

end Token

open Token

/-! ## Declarations -/

/-- The names of the functions, globals and strings of a module are made of name characters. -/
structure Module.Spelled (m : Module) : Prop where
  functions : ∀ f ∈ m.functions, IsName f.name
  globals : ∀ g ∈ m.globals, IsName g.name
  strings : ∀ s ∈ m.strings, IsName s.name

/-- The names of the blocks and values of a function are made of name characters, and no two values have one name. -/
structure Function.Spelled (f : Function) : Prop where
  values : ∀ v name, (f.value v).name = some name → IsName name
  blocks : ∀ b, IsName (f.blockName b)
  apart : ∀ v w name, (f.value v).name = some name → (f.value w).name = some name → v = w

variable {m : Module} {text : String}

namespace Source

variable {lines : List TokenLine}

/-- The names in the lines of a text are made of name characters. -/
theorem spelled_tokenLines (h : tokenLines text = .ok lines) : ∀ t ∈ written lines, t.Spelled := by
  intro t ht
  obtain ⟨l, hl, ht⟩ := List.mem_flatMap.1 ht
  unfold tokenLines at h
  obtain ⟨scanned, hscanned, hfilter⟩ := Outcome.bind_eq_ok.1 h
  cases hfilter
  obtain ⟨⟨line, i⟩, -, hscan⟩ := Outcome.exists_of_mem_mapM hscanned (List.mem_filter.1 hl).1
  dsimp only at hscan
  split at hscan
  · rename_i tokens htokens
    cases hscan
    exact spelled_scan line.toList tokens htokens t ht
  · cases hscan

/-- Declarations have their names from their lines. -/
theorem spelled_declarations {m' : Module} {sources : List FunctionSource} (hlines : ∀ t ∈ written lines, t.Spelled)
    (hm : m.Spelled) (h : declarations m lines = .ok (m', sources)) : m'.Spelled := by
  refine declarations_keep_written (fun htokens hdecl hn => ?_) (fun htokens hdecl hn => ?_)
    (fun htokens hs hn => ?_) hm h
  · obtain ⟨rest, hrun⟩ := LineReader.exists_run hdecl
    obtain ⟨name, words, init, hname, -, rfl⟩ := exists_globalDecl hrun
    refine ⟨hn.functions, fun g hg => ?_, hn.strings⟩
    rcases Array.mem_push.1 hg with hg | rfl
    · exact hn.globals g hg
    · exact hlines _ (htokens hname)
  · obtain ⟨rest, hrun⟩ := LineReader.exists_run hdecl
    obtain ⟨name, literal, hname, -, rfl⟩ := exists_stringDecl hrun
    refine ⟨hn.functions, hn.globals, fun s hs => ?_⟩
    rcases Array.mem_push.1 hs with hs | rfl
    · exact hn.strings s hs
    · exact hlines _ (htokens hname)
  · obtain ⟨rest, hrun⟩ := LineReader.exists_run hs
    refine ⟨fun f hf => ?_, hn.globals, hn.strings⟩
    rcases Array.mem_push.1 hf with hf | rfl
    · exact hn.functions f hf
    · exact hlines _ (htokens (exists_signature hrun).1)

end Source

/-- More strings have numbered names. -/
theorem Module.Spelled.moreStrings {m' : Module} (h : m.Spelled) (hmore : m.MoreStrings m')
    (hheadings : m'.headings = m.headings) : m'.Spelled := by
  refine ⟨fun f hf => ?_, hmore.globals ▸ h.globals, fun s hs => ?_⟩
  · have hmem : f.heading ∈ m'.headings := List.mem_map_of_mem (Array.mem_toList_iff.2 hf)
    rw [hheadings] at hmem
    obtain ⟨g, hg, hheading⟩ := List.mem_map.1 hmem
    exact (show g.name = f.name from congrArg Heading.name hheading) ▸ h.functions g (Array.mem_toList_iff.1 hg)
  · obtain ⟨k, hk, rfl⟩ := Array.mem_iff_getElem.1 hs
    have hsome : m'.strings[k]? = some m'.strings[k] := Array.getElem?_eq_getElem hk
    by_cases hlt : k < m.strings.size
    · rw [hmore.old k hlt] at hsome
      exact h.strings _ (Array.mem_of_getElem? hsome)
    · rw [hmore.new k _ (Nat.le_of_not_lt hlt) hsome]
      have hbase : IsName "_str" := by
        simp [IsName, isNameChar, Char.isAlphanum, Char.isAlpha, Char.isUpper, Char.isLower]
      exact isName_append_repr hbase k

/-! ## Bodies -/

namespace Reader

variable {source : FunctionSource} {lines : List TokenLine} {r r' : Reading}

/-- The values of a body that was built have the names that the body defines. -/
theorem names_buildFunction (hawaits : source.Awaits r.module) (hcollected : source.Collected lines)
    (hrun : (buildFunction source).run r = .ok ((), r')) : r'.names.Perm source.definitions := by
  obtain ⟨name, returns, hnew⟩ := hawaits.declared.blank
  have hmeets := @meets_buildFunction _ (fun _ => True) _ hawaits.declared.id_lt (hnew ▸ Function.sound_new _ _ _)
    (hnew ▸ Function.headed_new _ _ _) (hnew ▸ Function.blank_new _ _ _) (by rw [hnew]; exact List.length_range)
    hcollected.formed fun _ _ _ => trivial
  exact (hmeets.of_run hrun).2

/-- The blocks of a body that is opened have the names that they have in the text. -/
theorem blockName_openBody {blocks : List (String × BlockId)} {phis : List (BlockId × InstId × Statement)}
    (hawaits : source.Awaits r.module) (hs : r.module.Sound) (hopening : Opening source blocks phis r')
    (h : (openBody source).run r = .ok ((blocks, phis), r')) {b : BlockId}
    (hb : b < (r'.module.function source.id).blocks.size) :
    (r'.module.function source.id).blockName b ∈ source.labels := by
  have hblank := hawaits.declared.blank_function
  obtain ⟨-, hsize, -⟩ := opened_openBody (hs _ hawaits.declared.id_lt) hblank hawaits.blocks h
  obtain ⟨r₂, r₃, r₄, found, hparams, hcreate, -⟩ := openBody_eq_ok h
  have hmore := Function.moreValues_of_steps (builds_defineParams ⟨source.id, none⟩ _ _ hparams).steps
  obtain ⟨hids, -⟩ := createBlocks_spec ⟨source.id, none⟩ hcreate
  obtain ⟨-, hnames, -⟩ := named_createBlocks ⟨source.id, none⟩ [] (fun e he => absurd he List.not_mem_nil) hcreate
  rw [hmore.blocks_size, hblank.blocks] at hids
  have hmem : b ∈ blocks.map (·.2) := by
    rw [hids]
    simpa using hsize ▸ hb
  obtain ⟨e, he, rfl⟩ := List.mem_map.1 hmem
  rw [hopening.named e he]
  exact (show blocks.map Prod.fst = source.labels from hnames) ▸ List.mem_map_of_mem he

theorem spelled_buildFunction (hlines : ∀ t ∈ Source.written lines, t.Spelled) (hcollected : source.Collected lines)
    (hs : r.module.Sound) (hh : r.module.Headed) (hawaits : source.Awaits r.module)
    (hrun : (buildFunction source).run r = .ok ((), r')) : (r'.module.function source.id).Spelled := by
  have hnames := names_buildFunction hawaits hcollected hrun
  obtain ⟨blocks, phis, r₁, g, hopen, hready, -, hfunction, hkeeps, -, hlabelled⟩ := buildFunction_ok hs hh hawaits hrun
  refine ⟨fun v name hv => ?_, fun b => ?_, fun v w name hv hw => ?_⟩
  · have hin : name ∈ r'.names := List.mem_map.2 ⟨(name, v), mem_of_lookup ((hlabelled name v).2 hv), rfl⟩
    exact hlines _ (hcollected.definitions name (hnames.mem_iff.1 hin))
  · have hsame : (r'.module.function source.id).blockName b = (r₁.module.function source.id).blockName b := by
      unfold Function.blockName Function.block
      rw [hfunction, hkeeps.blocks]
    rw [hsame]
    by_cases hb : b < (r₁.module.function source.id).blocks.size
    · obtain ⟨block, hblock, hname⟩ := List.mem_map.1 (blockName_openBody hawaits hs hready.opening hopen hb)
      rw [← hname]
      exact hlines _ (hcollected.blocks block hblock).name
    · unfold Function.blockName
      rw [Function.block_of_size_le (Nat.le_of_not_lt hb)]
      exact fun c hc => absurd hc List.not_mem_nil
  · have hv' := (hlabelled name v).2 hv
    rw [(hlabelled name w).2 hw] at hv'
    exact (Option.some.inj hv').symm

end Reader

/-! ## Texts -/

/-- All names of a module that was read are made of name characters, and within each function the names of the values are
apart. -/
theorem Module.spelled_parse (h : Module.parse text = .ok m) : m.Spelled ∧ ∀ f ∈ m.functions, f.Spelled := by
  refine ⟨?_, fun f hf => ?_⟩
  · obtain ⟨lines, m₀, sources, hlines, hdecl, hkeep⟩ := built_of_parse h
    have hempty : Module.Spelled {} := ⟨fun _ hf => by simp at hf, fun _ hg => by simp at hg, fun _ hs => by simp at hs⟩
    obtain ⟨hheadings, hstrings⟩ := hkeep (fun m => m.headings = m₀.headings ∧ m₀.MoreStrings m)
      (fun _ _ _ hbuilt hm => ⟨hbuilt.headings.trans hm.1, hm.2.trans hbuilt.symbols⟩) ⟨rfl, .refl m₀⟩
    exact (Source.spelled_declarations (Source.spelled_tokenLines hlines) hempty hdecl).moreStrings hstrings hheadings
  · obtain ⟨lines, m₀, sources, r, hlines, hdecl, hbuild, rfl, source, hsource, rfl⟩ := exists_source_of_parse h hf
    obtain ⟨hnodup, hs, hh, hawaits⟩ := Source.awaits_declarations hdecl
    obtain ⟨-, -, -, hall⟩ := Source.declared hdecl
    obtain ⟨-, -, hspelled⟩ := Reader.each_forM (r := { module := m₀ })
      (Q := fun source m => source.Collected lines → (m.function source.id).Spelled)
      (fun _ _ _ hs hh hawaits hrun hcollected =>
        Reader.spelled_buildFunction (Source.spelled_tokenLines hlines) hcollected hs hh hawaits hrun)
      (fun _ _ _ _ hfunction hspelled hcollected => hfunction ▸ hspelled hcollected) hnodup hs hh hawaits hbuild
    exact hspelled source hsource (hall source hsource).2

end SsaCompiler
