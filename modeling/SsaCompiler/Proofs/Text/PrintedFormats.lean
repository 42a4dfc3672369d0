import SsaCompiler.Proofs.Pipeline.StringData
import SsaCompiler.Proofs.Text.GrownCode

/-!
# What a format prints

A print holds its format in pieces: the chunks between the argument marks are strings of the module, and the arguments
stand in between. Each chunk gets quotes of its own, loses them again, has its line feeds spelled out, and is entered in
the module, where an equal string may be already. None of this changes what is printed: the pieces give the bytes that
the whole literal stands for, with the arguments in the place of the marks (`Builder.print_written`).

The reason is that the changes of a text never touch a mark. So a text is cut into the same chunks before and after each
of them (`StringConst.splitFormat_spell`, `StringConst.splitFormat_decode`, `fillMarks_flatMap`).
-/

set_option autoImplicit false

namespace SsaCompiler

open Edits Builder Relation

/-- Bytes with texts in the place of the argument marks, one behind the other. There must be a text for each mark. -/
def fillMarks : List UInt8 → List (List UInt8) → Option (List UInt8)
  | 37 :: 100 :: rest, text :: texts => (fillMarks rest texts).map (text ++ ·)
  | 37 :: 100 :: _, [] => none
  | b :: rest, texts => (fillMarks rest texts).map (b :: ·)
  | [], [] => some []
  | [], _ :: _ => none

/-- Chunks with texts between them, one between any two. -/
def fillGaps : List (List UInt8) → List (List UInt8) → Option (List UInt8)
  | [chunk], [] => some chunk
  | chunk :: chunks, text :: texts => (fillGaps chunks texts).map (chunk ++ text ++ ·)
  | _, _ => none

/-- What the pieces of a print give: the bytes of the strings of a module, and a text for each argument. -/
def Module.written (m : Module) : List PrintPiece → List (List UInt8) → Option (List UInt8)
  | [], [] => some []
  | .str s :: pieces, texts => do
    let c ← m.strings[s]?
    return c.bytes ++ (← m.written pieces texts)
  | .arg :: pieces, text :: texts => (m.written pieces texts).map (text ++ ·)
  | _, _ => none

/-! ## Chunks of a text -/

variable {chunk : List Char}

variable {c : Char}

namespace Builder

/-- There is a first chunk. -/
theorem exists_splitFormat (text : List Char) : ∃ chunk chunks, splitFormat text = chunk :: chunks :=
  List.exists_cons_of_length_pos (length_splitFormat text ▸ Nat.succ_pos _)

variable {rest : List Char}

/-- A character that does not begin a mark belongs to the first chunk. -/
theorem splitFormat_cons (h : ∀ more, c = '%' → rest = 'd' :: more → False) :
    splitFormat (c :: rest) = (splitFormat rest).modifyHead (c :: ·) := by
  obtain ⟨chunk, chunks, hsplit⟩ := exists_splitFormat rest
  rw [splitFormat.eq_2 c rest h, hsplit]
  rfl

/-- So do characters among which there is no percent sign. -/
theorem splitFormat_append {pre : List Char} (h : '%' ∉ pre) (rest : List Char) :
    splitFormat (pre ++ rest) = (splitFormat rest).modifyHead (pre ++ ·) := by
  induction pre with
  | nil =>
    obtain ⟨chunk, chunks, hsplit⟩ := exists_splitFormat rest
    rw [List.nil_append, hsplit]
    rfl
  | cons c pre ih =>
    rw [List.mem_cons, not_or] at h
    rw [List.cons_append, splitFormat_cons fun _ hmark => absurd hmark.symm h.1, ih h.2, List.modifyHead_modifyHead]
    rfl

/-- The text begins with the first chunk. -/
theorem isPrefix_of_splitFormat {text : List Char} {chunks : List (List Char)}
    (h : splitFormat text = chunk :: chunks) : chunk <+: text := by
  fun_induction splitFormat text generalizing chunk chunks with
  | case1 rest ih => exact (List.cons.inj h).1 ▸ List.nil_prefix
  | case2 c rest hmark chunk' chunks' hsplit ih =>
    obtain ⟨rfl, -⟩ := List.cons.inj h
    exact (List.prefix_cons_inj c).2 (ih hsplit)
  | case3 c rest hmark hsplit ih =>
    obtain ⟨chunk', chunks', hsplit'⟩ := exists_splitFormat rest
    rw [hsplit] at hsplit'
    cases hsplit'
  | case4 => exact (List.cons.inj h).1 ▸ List.nil_prefix

/-- What is cut may be changed before or after: one more character that is kept. A change must not make or unmake the
letter of a mark. -/
theorem splitFormat_map_cons {g : List Char → List Char} (hnil : g [] = [])
    (hletter : ∀ more, g ('d' :: more) = 'd' :: g more)
    (hfirst : ∀ text more, g text = 'd' :: more → ∃ more', text = 'd' :: more')
    (hkeeps : ∀ chunk, chunk <+: rest → g (c :: chunk) = c :: g chunk)
    (ih : splitFormat (g rest) = (splitFormat rest).map g) :
    splitFormat (g (c :: rest)) = (splitFormat (c :: rest)).map g := by
  rw [hkeeps rest List.prefix_rfl]
  by_cases hmark : ∃ more, c = '%' ∧ rest = 'd' :: more
  · obtain ⟨more, rfl, rfl⟩ := hmark
    -- The letter of the mark stands before a chunk of the rest; it is taken off on both sides.
    obtain ⟨chunk, chunks, hsplit⟩ := exists_splitFormat more
    obtain ⟨chunk', chunks', hsplit'⟩ := exists_splitFormat (g more)
    have hd : ∀ text, splitFormat ('d' :: text) = (splitFormat text).modifyHead ('d' :: ·) := fun text =>
      splitFormat_cons fun _ h => by cases h
    rw [hletter, hd, hd, hsplit, hsplit'] at ih
    obtain ⟨hchunk, rfl⟩ := List.cons.inj ih
    rw [hletter] at hchunk
    rw [hletter, splitFormat, splitFormat, hsplit, hsplit', (List.cons.inj hchunk).2, List.map_cons, hnil, List.map_cons]
  · obtain ⟨chunk, chunks, hsplit⟩ := exists_splitFormat rest
    rw [splitFormat_cons fun more hc hrest => ?_, splitFormat_cons fun more hc hrest => hmark ⟨more, hc, hrest⟩, ih, hsplit]
    · exact congrArg (· :: _) (hkeeps chunk (isPrefix_of_splitFormat hsplit)).symm
    · obtain ⟨more', rfl⟩ := hfirst rest more hrest
      exact hmark ⟨more', hc, rfl⟩

end Builder

namespace StringConst

/-- The quotes that are put around a text come off again. -/
theorem strip_quoted (text : List Char) : strip ('"' :: text ++ ['"']) = text := by
  change (if (text ++ ['"']).getLast? = some '"' then (text ++ ['"']).dropLast else _) = text
  rw [if_pos List.getLast?_concat, List.dropLast_concat]

/-- Spelling out the line feeds of a text spells them out in each chunk. -/
theorem splitFormat_spell (text : List Char) : splitFormat (spell text) = (splitFormat text).map spell := by
  fun_induction spell text with
  | case1 rest ih =>
    obtain ⟨chunk, chunks, hsplit⟩ := exists_splitFormat rest
    change splitFormat (['\\', '0', 'A'] ++ spell rest) = (splitFormat (['\\', 'n'] ++ rest)).map spell
    rw [splitFormat_append (by decide), splitFormat_append (by decide), ih, hsplit]
    rfl
  | case2 c rest hfeed ih =>
    rw [← spell.eq_2 c rest hfeed]
    refine splitFormat_map_cons rfl (fun more => spell.eq_2 _ _ fun _ h => by cases h) (fun text more h => ?_)
      (fun chunk hchunk => spell.eq_2 c chunk fun more hc hmore => ?_) ih
    · fun_cases spell text with
      | case1 more' => cases h
      | case2 c more' hfeed =>
        rw [spell.eq_2 c more' hfeed] at h
        exact ⟨more', congrArg (· :: more') (List.cons.inj h).1⟩
      | case3 => cases h
    · obtain ⟨later, rfl⟩ := hmore ▸ hchunk
      exact hfeed _ hc rfl
  | case3 => rfl

/-- Reading the line feeds of a text reads them in each chunk. -/
theorem splitFormat_decode (text : List Char) : splitFormat (decode text) = (splitFormat text).map decode := by
  fun_induction decode text with
  | case1 rest ih =>
    obtain ⟨chunk, chunks, hsplit⟩ := exists_splitFormat rest
    change splitFormat (['\n'] ++ decode rest) = (splitFormat (['\\', '0', 'A'] ++ rest)).map decode
    rw [splitFormat_append (by decide), splitFormat_append (by decide), ih, hsplit]
    rfl
  | case2 c rest hfeed ih =>
    rw [← decode.eq_2 c rest hfeed]
    refine splitFormat_map_cons rfl (fun more => decode.eq_2 _ _ fun _ h => by cases h) (fun text more h => ?_)
      (fun chunk hchunk => decode.eq_2 c chunk fun more hc hmore => ?_) ih
    · fun_cases decode text with
      | case1 more' => cases h
      | case2 c more' hfeed =>
        rw [decode.eq_2 c more' hfeed] at h
        exact ⟨more', congrArg (· :: more') (List.cons.inj h).1⟩
      | case3 => cases h
    · obtain ⟨later, rfl⟩ := hmore ▸ hchunk
      exact hfeed _ hc rfl
  | case3 => rfl

end StringConst

/-! ## Marks among bytes -/

section Marks

variable {texts : List (List UInt8)}

/-- A byte of ASCII encodes the character with that code only. -/
theorem eq_of_mem_utf8EncodeChar {d : Char} (hd : d.toNat < 128) (h : d.val.toUInt8 ∈ String.utf8EncodeChar c) :
    c = d := by
  have hbyte : d.val.toUInt8.toNat = d.toNat := by
    rw [UInt32.toNat_toUInt8]
    exact Nat.mod_eq_of_lt (Nat.lt_trans hd (by decide))
  rcases Nat.lt_or_ge c.toNat 128 with hc | hc
  · rw [ByteScan.encode_ascii hc, List.mem_singleton] at h
    rw [← ByteScan.ofUInt8_ascii hc, ← h, ByteScan.ofUInt8_ascii hd]
  · exact absurd (DataItem.le_of_mem_utf8EncodeChar hc _ h) (by omega)

/-- A byte that does not begin a mark stays. -/
theorem fillMarks_cons {b : UInt8} {rest : List UInt8} (h : ∀ more, b = 37 → rest = 100 :: more → False) :
    fillMarks (b :: rest) texts = (fillMarks rest texts).map (b :: ·) :=
  fillMarks.eq_3 texts b rest (fun more _ _ _ => h more) fun more _ => h more

/-- Bytes among which there is no percent sign stay. -/
theorem fillMarks_append {pre : List UInt8} (h : 37 ∉ pre) (rest : List UInt8) :
    fillMarks (pre ++ rest) texts = (fillMarks rest texts).map (pre ++ ·) := by
  induction pre with
  | nil => exact Option.map_id'.symm
  | cons b pre ih =>
    rw [List.mem_cons, not_or] at h
    rw [List.cons_append, fillMarks_cons fun _ hb => absurd hb.symm h.1, ih h.2, Option.map_map]
    rfl

/-- Bytes in front of the first chunk come first. -/
theorem fillGaps_append (pre chunk : List UInt8) (chunks : List (List UInt8)) :
    fillGaps ((pre ++ chunk) :: chunks) texts = (fillGaps (chunk :: chunks) texts).map (pre ++ ·) := by
  cases texts with
  | nil => cases chunks <;> rfl
  | cons text texts => simp [fillGaps, Function.comp_def]

/-- There is something between the chunks if there is a text for each gap. -/
theorem exists_fillGaps {chunks : List (List UInt8)} (h : chunks.length = texts.length + 1) :
    ∃ bytes, fillGaps chunks texts = some bytes := by
  induction texts generalizing chunks with
  | nil =>
    obtain ⟨chunk, rfl⟩ := List.length_eq_one_iff.1 h
    exact ⟨chunk, rfl⟩
  | cons text texts ih =>
    cases chunks with
    | nil => cases h
    | cons chunk chunks =>
      obtain ⟨bytes, hbytes⟩ := ih (Nat.succ.inj h)
      exact ⟨chunk ++ text ++ bytes, by rw [fillGaps, hbytes]; rfl⟩

theorem fillMarks_flatMap (text : List Char) (texts : List (List UInt8)) :
    fillMarks (text.flatMap String.utf8EncodeChar) texts =
      fillGaps ((splitFormat text).map (List.flatMap String.utf8EncodeChar)) texts := by
  fun_induction splitFormat text generalizing texts with
  | case1 rest ih =>
    change fillMarks (37 :: 100 :: rest.flatMap String.utf8EncodeChar) texts = _
    obtain ⟨chunk, chunks, hsplit⟩ := exists_splitFormat rest
    rw [hsplit] at ih ⊢
    cases texts with
    | nil => rfl
    | cons text texts =>
      rw [fillMarks, ih]
      rfl
  | case2 c rest hmark chunk chunks hsplit ih =>
    rw [hsplit, List.map_cons] at ih
    rw [List.map_cons, List.flatMap_cons, List.flatMap_cons, fillGaps_append, ← ih]
    by_cases hc : c = '%'
    · -- What stands behind the percent sign does not begin with the byte of the letter.
      subst hc
      refine fillMarks_cons fun more _ hmore => ?_
      cases rest with
      | nil => cases hmore
      | cons d rest =>
        obtain ⟨b, bytes, hd⟩ := List.exists_cons_of_length_pos
          ((String.length_utf8EncodeChar d).symm ▸ Char.utf8Size_pos d : 0 < (String.utf8EncodeChar d).length)
        rw [List.flatMap_cons, hd] at hmore
        obtain ⟨rfl, -⟩ := List.cons.inj hmore
        obtain rfl : d = 'd' := eq_of_mem_utf8EncodeChar (d := 'd') (by decide) (hd ▸ List.mem_cons_self)
        exact hmark rest rfl rfl
    · exact fillMarks_append (fun h => hc (eq_of_mem_utf8EncodeChar (d := '%') (by decide) h)) _
  | case3 c rest hmark hsplit ih =>
    obtain ⟨chunk, chunks, hsplit'⟩ := exists_splitFormat rest
    rw [hsplit] at hsplit'
    cases hsplit'
  | case4 => cases texts <;> rfl

end Marks

/-- The literal of a text stands for the text with its marks filled exactly if its chunks do with the gaps filled. -/
theorem StringConst.fillMarks_encode (text : List Char) (texts : List (List UInt8)) :
    fillMarks (encode (spell text)) texts = fillGaps ((splitFormat text).map fun chunk => encode (spell chunk)) texts := by
  rw [encode, fillMarks_flatMap, splitFormat_decode, splitFormat_spell, List.map_map, List.map_map]
  rfl

/-! ## Pieces of a print -/

/-- A literal that was entered is a string of the module with the text of the literal, be it new or not. -/
theorem Module.exists_text_addString (m : Module) (literal : String) :
    ∃ c, (m.addString literal).2.strings[(m.addString literal).1]? = some c ∧
      c.text = (StringConst.ofLiteral "" literal).text := by
  unfold Module.addString
  dsimp only
  split
  · rename_i id hid
    obtain ⟨hlt, htext, -⟩ := Array.findIdx?_eq_some_iff_getElem.1 hid
    exact ⟨m.strings[id], Array.getElem?_eq_getElem hlt, eq_of_beq htext⟩
  · exact ⟨_, Array.getElem?_push_size, rfl⟩

namespace Builder

/-- The string of a chunk stands for the chunk. -/
theorem bytes_chunk {c : StringConst}
    (h : c.text = (StringConst.ofLiteral "" (String.ofList ('"' :: chunk ++ ['"']))).text) :
    c.bytes = StringConst.encode (StringConst.spell chunk) := by
  rw [StringConst.bytes, h, StringConst.ofLiteral, String.toList_ofList, String.toList_ofList, StringConst.strip_quoted]

/-- What stands for a chunk in the pieces gives the chunk. -/
theorem written_chunk {head : List PrintPiece} {m m₁ m' : Module} (hchunk : chunk = [] ∧ head = [] ∧ m₁ = m ∨
      ∃ s, head = [.str s] ∧ m.addString (String.ofList ('"' :: chunk ++ ['"'])) = (s, m₁))
    (hmore : m₁.MoreStrings m') (pieces : List PrintPiece) (texts : List (List UInt8)) :
    m'.written (head ++ pieces) texts =
      (m'.written pieces texts).map (StringConst.encode (StringConst.spell chunk) ++ ·) := by
  rcases hchunk with ⟨rfl, rfl, -⟩ | ⟨s, rfl, hadd⟩
  · exact Option.map_id'.symm
  · obtain ⟨c, hc, htext⟩ := m.exists_text_addString (String.ofList ('"' :: chunk ++ ['"']))
    rw [hadd] at hc
    have hc' : m'.strings[s]? = some c := (hmore.old s (Array.getElem?_eq_some_iff.1 hc).1).trans hc
    rw [List.singleton_append, Module.written, hc', ← bytes_chunk htext]
    cases m'.written pieces texts <;> rfl

/-- The pieces of a format give its chunks with the gaps filled, also when the module has more strings by then. -/
theorem written_formatPieces {rest : List (List Char)} : ∀ {chunk : List Char} {m m₁ m' : Module}
    {pieces : List PrintPiece} {texts : List (List UInt8)}, (formatPieces (chunk :: rest)).run m = (.ok pieces, m₁) →
      m₁.MoreStrings m' → m'.written pieces texts =
        fillGaps ((chunk :: rest).map fun chunk => StringConst.encode (StringConst.spell chunk)) texts := by
  induction rest with
  | nil =>
    intro chunk m m₁ m' pieces texts h hmore
    obtain ⟨head, m₂, tail, hchunk, htail, rfl⟩ := formatPieces_cons_eq_ok h
    cases htail
    rw [List.append_assoc, written_chunk hchunk hmore]
    cases texts with
    | nil => exact congrArg some (List.append_nil _)
    | cons text texts => rfl
  | cons next rest ih =>
    intro chunk m m₁ m' pieces texts h hmore
    obtain ⟨head, m₂, tail, hchunk, htail, rfl⟩ := formatPieces_cons_eq_ok h
    have hgrown := (builds_formatPieces (S := Eq) ⟨0, none⟩ (next :: rest) htail).symbols
    rw [List.append_assoc, written_chunk hchunk (hgrown.trans hmore)]
    cases texts with
    | nil => rfl
    | cons text texts =>
      change ((m'.written tail texts).map (text ++ ·)).map _ = (fillGaps _ texts).map _
      rw [ih htail hmore, Option.map_map]
      exact Option.map_congr fun bytes _ => (List.append_assoc _ _ _).symm

/-- Appending an instruction leaves the strings of the module alone. -/
theorem symbols_emit {b : Builder} {m m' : Module} {kind : InstKind} {operands : List ValueId} {hasResult : Bool}
    {i : InstId} (h : (b.emit kind operands hasResult).run m = (.ok i, m')) : m.MoreStrings m' := by
  obtain ⟨c, m₁, hcurrent, hedit⟩ := bind_eq_ok h
  obtain ⟨-, rfl⟩ := b.current_eq_ok hcurrent
  exact ModuleEdit.symbols_editFunction hedit

/-- **A print loses nothing of its format.** Let there be an argument for each mark of a format. Then the pieces of a
print that is appended give what the literal of the whole format stands for, with the decimal texts of the arguments in
the place of its marks. That holds for every module, and so for all strings that it has already. At a block without
terminator the print is appended if the arguments are values of the function. -/
theorem print_written {b : Builder} {m : Module} {format : String} {args : List ValueId} (name : String)
    (value : ValueId → Word) (hargs : LineReader.countMarks format.toList = args.length) :
    (∀ i m', (b.print format args).run m = (.ok i, m') → ∃ pieces bytes,
      (m'.function b.func).kind i = .print pieces ∧ (m'.function b.func).operands i = args ∧
      m'.written pieces (args.map fun v => utf8 (value v).text) = some bytes ∧
      fillMarks (StringConst.ofLiteral name format).bytes (args.map fun v => utf8 (value v).text) = some bytes) ∧
    ∀ c, b.Open m c → (∀ v ∈ args, v < (m.function b.func).values.size) →
      ∃ i m', (b.print format args).run m = (.ok i, m') := by
  refine ⟨fun i m' hprint => ?_, fun c hopen hvalues => ?_⟩
  · obtain ⟨pieces, m₁, hpieces, hemit⟩ := bind_eq_ok hprint
    obtain ⟨hkind, hoperands⟩ := b.appended_emit hemit
    obtain ⟨chunk, rest, hsplit⟩ := exists_splitFormat (StringConst.strip format.toList)
    have hlength : (chunk :: rest).length = args.length + 1 := by
      rw [← hsplit, length_splitFormat, countMarks_strip, hargs]
    obtain ⟨bytes, hbytes⟩ := @exists_fillGaps (args.map fun v => utf8 (value v).text)
      ((chunk :: rest).map fun chunk => StringConst.encode (StringConst.spell chunk))
      (by rw [List.length_map, List.length_map, hlength])
    rw [hsplit] at hpieces
    refine ⟨pieces, bytes, hkind, hoperands, (written_formatPieces hpieces (symbols_emit hemit)).trans hbytes, ?_⟩
    rw [StringConst.bytes, StringConst.ofLiteral, String.toList_ofList, StringConst.fillMarks_encode, hsplit, hbytes]
  · obtain ⟨i, m', hprint, -⟩ := hopen.print format hvalues
    exact ⟨i, m', hprint⟩

/-- A module that holds a string already, and a function with an empty block. -/
def labelled : Module where
  strings := #[.ofLiteral "label" "\"x=\""]
  functions := #[{
    name := "report"
    returnsValue := false
    params := [0]
    values := #[{ kind := .param 0 }]
    blocks := #[{ name := "e" }]
    layout := [0] }]

/-- A print is appended, whose first chunk is the string that the module holds. -/
theorem print_written_labelled : LineReader.countMarks "\"x=%d, y=%d\\n\"".toList = [0, 0].length ∧
    Open { func := 0, block := some 0 } labelled 0 ∧
    ∃ i m' pieces, (Builder.print { func := 0, block := some 0 } "\"x=%d, y=%d\\n\"" [0, 0]).run labelled = (.ok i, m') ∧
      (m'.function 0).kind i = .print pieces ∧
      m'.written pieces [utf8 "3", utf8 "3"] = some (utf8 "x=3, y=3\n") := by
  have hmarks : LineReader.countMarks "\"x=%d, y=%d\\n\"".toList = [0, 0].length := by decide
  have hblock : (Edit.createBlock "e").run (.new "report" 1 false) = (.ok 0, labelled.function 0) := rfl
  have hsound : (labelled.function 0).Sound :=
    Function.BuildSteps.sound (ReflTransGen.single (.block hblock)) (Function.sound_new "report" 1 false)
  have hopen : Open { func := 0, block := some 0 } labelled 0 := ⟨rfl, by decide, hsound, by decide, rfl⟩
  obtain ⟨hpieces, hsucceeds⟩ := print_written (b := { func := 0, block := some 0 }) (m := labelled) "" (fun _ => 3) hmarks
  obtain ⟨i, m', hrun⟩ := hsucceeds 0 hopen (by decide)
  obtain ⟨pieces, bytes, hkind, -, hwritten, hfilled⟩ := hpieces i m' hrun
  have hbytes : fillMarks (StringConst.ofLiteral "" "\"x=%d, y=%d\\n\"").bytes [utf8 "3", utf8 "3"] =
      some (utf8 "x=3, y=3\n") := by decide
  refine ⟨hmarks, hopen, i, m', pieces, hrun, hkind, ?_⟩
  exact hwritten.trans (hfilled.symm.trans hbytes)

end Builder

end SsaCompiler
