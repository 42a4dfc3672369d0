import SsaCompiler.Proofs.Pipeline.DataLabels
import SsaCompiler.Proofs.Text.ByteTokens

/-!
# Strings in the data section

An assembler that knows the escapes for line feed, quote and backslash, and no other one, finds the end of every string
of a program: no line feed and no bare quote stands between the quotes of its line. What it reads in between is the
string with each byte in the encoding of the character with that code. That is one byte if the byte is below 128, and two
bytes otherwise. So the string is read as it was written exactly if its text is ASCII.
-/

set_option autoImplicit false

namespace SsaCompiler

/-- The bytes of a text. -/
def utf8 (text : String) : List UInt8 := text.toList.flatMap String.utf8EncodeChar

/-- The bytes of texts one behind the other. -/
theorem utf8_append (a b : String) : utf8 (a ++ b) = utf8 a ++ utf8 b := by
  simp [utf8, String.toList_append]

namespace DataItem

/-- The byte that stands behind a backslash for another one. -/
def unescape? (b : UInt8) : Option UInt8 :=
  if b = 110 then some 10 else if b = 34 then some 34 else if b = 92 then some 92 else none

/-- What an assembler reads behind an opening quote: the string up to the closing quote, and the bytes behind that. A
string does not go over the end of its line, and has no other escapes. -/
def readQuoted : List UInt8 → Option (List UInt8 × List UInt8)
  | [] => none
  | b :: rest =>
    if b = 10 then none
    else if b = 34 then some ([], rest)
    else if b = 92 then
      match rest with
      | [] => none
      | e :: rest => (unescape? e).bind fun c => (readQuoted rest).map fun r => (c :: r.1, r.2)
    else (readQuoted rest).map fun r => (b :: r.1, r.2)

/-- The bytes of the character that is printed for a byte. -/
def printed (b : UInt8) : List UInt8 := String.utf8EncodeChar (Char.ofNat b.toNat)

variable {bytes rest : List UInt8}

/-! ## One byte -/

/-- The character with the code of a byte. -/
theorem toNat_ofNat_byte (b : UInt8) : (Char.ofNat b.toNat).toNat = b.toNat := by
  have h : b.toNat.isValidChar := .inl (by have := b.toNat_lt; omega)
  rw [Char.ofNat, dif_pos h]
  rfl

variable {b : UInt8}

/-- A byte below 128 is printed as it is. -/
theorem printed_of_lt (h : b.toNat < 128) : printed b = [b] := by
  have hcode := toNat_ofNat_byte b
  rw [printed, ByteScan.encode_ascii (by omega)]
  refine congrArg (fun x => [x]) (UInt8.toNat_inj.1 ?_)
  rw [UInt32.toNat_toUInt8]
  change (Char.ofNat b.toNat).toNat % 2 ^ 8 = b.toNat
  omega

/-- Any other byte is printed as two bytes. -/
theorem length_printed (h : 128 ≤ b.toNat) : (printed b).length = 2 := by
  have hcode : (Char.ofNat b.toNat).val.toNat = b.toNat := toNat_ofNat_byte b
  have hlt := b.toNat_lt
  unfold printed String.utf8EncodeChar
  rw [hcode, if_neg (by omega), if_pos (by omega)]
  rfl

/-- The bytes of a longer character are of 128 or more. -/
theorem le_of_mem_utf8EncodeChar {c : Char} (h : 128 ≤ c.toNat) : ∀ b ∈ String.utf8EncodeChar c, 128 ≤ b.toNat := by
  intro b hb
  have hle := ByteScan.le_of_mem_encode h hb
  change 128 ≤ b.toUInt32.toNat at hle
  rwa [UInt8.toNat_toUInt32] at hle

/-- Bytes that are no line feed, quote or backslash stand for themselves. -/
theorem readQuoted_append (h : ∀ b ∈ bytes, b ≠ 10 ∧ b ≠ 34 ∧ b ≠ 92) :
    readQuoted (bytes ++ rest) = (readQuoted rest).map fun r => (bytes ++ r.1, r.2) := by
  induction bytes with
  | nil => simp
  | cons b bytes ih =>
    obtain ⟨⟨hfeed, hquote, hslash⟩, hrest⟩ := List.forall_mem_cons.1 h
    rw [List.cons_append, readQuoted.eq_def]
    simp only [hfeed, hquote, hslash, if_false, ih hrest, Option.map_map]
    rfl

/-- A printed byte is read as the bytes of its character. -/
theorem readQuoted_escape (b : UInt8) : readQuoted ((escape b).flatMap String.utf8EncodeChar ++ rest) =
      (readQuoted rest).map fun r => (printed b ++ r.1, r.2) := by
  unfold escape
  split
  · rename_i hb
    subst hb
    rfl
  · split
    · rename_i hb
      subst hb
      rfl
    · split
      · rename_i hb
        subst hb
        rfl
      · rename_i hfeed hquote hslash
        rw [List.flatMap_singleton, ← printed]
        refine readQuoted_append ?_
        rcases Nat.lt_or_ge b.toNat 128 with hlt | hle
        · rw [printed_of_lt hlt]
          simpa using ⟨hfeed, hquote, hslash⟩
        · intro x hx
          have hcode := toNat_ofNat_byte b
          have hx' := le_of_mem_utf8EncodeChar (by omega) x hx
          refine ⟨?_, ?_, ?_⟩ <;> rintro rfl <;> exact absurd hx' (by decide)

/-! ## Whole strings -/

/-- The printed bytes of a string are read up to the closing quote. -/
theorem readQuoted_flatMap_escape (bytes : List UInt8) :
    readQuoted (utf8 (String.ofList (bytes.flatMap escape)) ++ 34 :: rest) = some (bytes.flatMap printed, rest) := by
  rw [utf8, String.toList_ofList]
  induction bytes with
  | nil => rw [List.flatMap_nil, List.flatMap_nil, List.nil_append, readQuoted.eq_def]; rfl
  | cons b bytes ih =>
    rw [List.flatMap_cons, List.flatMap_append, List.append_assoc, readQuoted_escape, ih]
    rfl

/-- No byte is lost when it is printed. -/
theorem length_le_flatMap_printed (bytes : List UInt8) : bytes.length ≤ (bytes.flatMap printed).length := by
  induction bytes with
  | nil => exact Nat.le_refl 0
  | cons b bytes ih =>
    have hone : 1 ≤ (printed b).length := by
      rw [printed, String.length_utf8EncodeChar]
      exact Char.utf8Size_pos _
    rw [List.flatMap_cons, List.length_append, List.length_cons]
    omega

/-- The printed bytes of a string are its own exactly if none is of 128 or more. -/
theorem flatMap_printed_eq_iff (bytes : List UInt8) : bytes.flatMap printed = bytes ↔ ∀ b ∈ bytes, b.toNat < 128 := by
  induction bytes with
  | nil => simp
  | cons b bytes ih =>
    rw [List.flatMap_cons, List.forall_mem_cons]
    rcases Nat.lt_or_ge b.toNat 128 with hlt | hle
    · rw [printed_of_lt hlt, List.singleton_append, List.cons_inj_right, ih, and_iff_right hlt]
    · refine iff_of_false (fun heq => ?_) fun h => absurd h.1 (Nat.not_lt.2 hle)
      -- The first byte takes two, so there are too many.
      have hlength := congrArg List.length heq
      have hmore := length_le_flatMap_printed bytes
      rw [List.length_append, length_printed hle, List.length_cons] at hlength
      omega

end DataItem

namespace StringConst

/-- A character is encoded in bytes below 128 exactly if it is ASCII. -/
theorem ascii_utf8EncodeChar_iff (c : Char) : (∀ b ∈ String.utf8EncodeChar c, b.toNat < 128) ↔ c.toNat < 128 := by
  constructor
  · intro h
    by_contra hc
    obtain ⟨b, hb⟩ := List.exists_mem_of_length_pos
      ((String.length_utf8EncodeChar c).symm ▸ Char.utf8Size_pos c : 0 < (String.utf8EncodeChar c).length)
    exact absurd (h b hb) (Nat.not_lt.2 (DataItem.le_of_mem_utf8EncodeChar (Nat.not_lt.1 hc) b hb))
  · intro h b hb
    rw [ByteScan.encode_ascii h, List.mem_singleton] at hb
    rw [hb, UInt32.toNat_toUInt8]
    change c.toNat % 2 ^ 8 < 128
    omega

/-- The line feed that an escape stands for is as ASCII as the escape. -/
theorem ascii_decode_iff (text : List Char) : (∀ c ∈ decode text, c.toNat < 128) ↔ ∀ c ∈ text, c.toNat < 128 := by
  fun_induction decode text with
  | case1 rest ih =>
    simp only [List.forall_mem_cons, ih]
    exact ⟨fun h => ⟨by decide, by decide, by decide, h.2⟩, fun h => ⟨by decide, h.2.2.2⟩⟩
  | case2 c rest _ ih => rw [List.forall_mem_cons, List.forall_mem_cons, ih]
  | case3 => exact Iff.rfl

/-- A text stands for bytes below 128 exactly if it is ASCII. -/
theorem ascii_encode_iff (text : List Char) : (∀ b ∈ encode text, b.toNat < 128) ↔ ∀ c ∈ text, c.toNat < 128 := by
  rw [encode, List.forall_mem_flatMap, ← ascii_decode_iff]
  exact forall₂_congr fun c _ => ascii_utf8EncodeChar_iff c

end StringConst

/-! ## The strings of a program -/

variable {m : Module}

namespace Module

/-- Every string of a module has its line in the data section. -/
theorem exists_sectionText_eq {c : StringConst} (hc : c ∈ m.strings) : ∃ earlier later,
    m.dataItems = earlier ++ stringItem c :: later ∧ DataItem.sectionText m.dataItems =
      DataItem.sectionText earlier ++ (stringItem c).text ++ String.join (later.map DataItem.text) := by
  have hmem : stringItem c ∈ m.dataItems :=
    List.mem_append_right _ (List.mem_map.2 ⟨c, Array.mem_toList_iff.2 hc, rfl⟩)
  obtain ⟨earlier, later, hsplit⟩ := List.append_of_mem hmem
  refine ⟨earlier, later, hsplit, ?_⟩
  rw [hsplit]
  simp [DataItem.sectionText, String.append_assoc]

end Module

namespace Compile

open Stateful

/-- The assembly text of a module begins with the data section of its items. -/
theorem exists_eq_sectionText_append {o : Options} {asm : String} {s s' : Session}
    (hrun : (assembly o m).run s = .ok (asm, s')) : ∃ rest, asm = DataItem.sectionText m.dataItems ++ rest := by
  obtain ⟨m₁, s₁, hoptimize, h₁⟩ := bind_eq_ok hrun
  obtain ⟨program, s₂, hlower, h₂⟩ := bind_eq_ok h₁
  obtain ⟨functions, s₃, -, hfunctions⟩ := bind_eq_ok hoptimize
  obtain ⟨_, s₄, -, hmodule⟩ := bind_eq_ok hfunctions
  cases hmodule
  obtain ⟨compiled, s₅, -, hprogram⟩ := bind_eq_ok hlower
  cases hprogram
  obtain ⟨texts, -, htext⟩ := Outcome.bind_eq_ok.1 (lift_eq_ok h₂).1
  cases htext
  exact ⟨"\n.text\n" ++ String.join texts ++ Builtin.stubs, by simp [Module.dataItems, String.append_assoc]⟩

/-- **What an assembler reads for a string.** In the assembly text of a module every string has its line, and behind the
opening quote an assembler comes to the closing quote just before the end of that line. It has then read the bytes of the
string, each as the character with that code. These are the bytes of the string exactly if its text is ASCII. -/
theorem string_read_assembly_iff {m : Module} {o : Options} {asm : String} {s s' : Session}
    (hrun : (assembly o m).run s = .ok (asm, s')) {c : StringConst} (hc : c ∈ m.strings) :
    ∃ earlier later inner rest, m.dataItems = earlier ++ Module.stringItem c :: later ∧
      asm = DataItem.sectionText earlier ++ (stringLabel c.name ++ ": .asciiz \"" ++ inner ++ "\"\n") ++ rest ∧
      DataItem.readQuoted (utf8 (inner ++ "\"\n")) = some (c.bytes.flatMap DataItem.printed, [10]) ∧
      (c.bytes.flatMap DataItem.printed = c.bytes ↔ ∀ x ∈ c.text.toList, x.toNat < 128) := by
  obtain ⟨rest, rfl⟩ := exists_eq_sectionText_append hrun
  obtain ⟨earlier, later, hitems, hsection⟩ := Module.exists_sectionText_eq hc
  refine ⟨earlier, later, String.ofList (c.bytes.flatMap DataItem.escape), String.join (later.map DataItem.text) ++ rest,
    hitems, ?_, ?_, ?_⟩
  · rw [hsection, String.append_assoc, String.append_assoc, String.append_assoc]
    rfl
  · rw [utf8_append]
    exact DataItem.readQuoted_flatMap_escape c.bytes
  · rw [DataItem.flatMap_printed_eq_iff]
    exact StringConst.ascii_encode_iff c.text.toList

/-- A module with a string that is not ASCII. -/
def accented : Module where
  strings := #[.ofLiteral "s" "\u00e9"]
  functions := #[{
    name := "main"
    returnsValue := false
    insts := #[{ kind := .ret, operands := [], result := none, block := some 0 }]
    blocks := #[{ name := "e", insts := [0] }]
    layout := [0] }]

set_option maxRecDepth 4000 in
/-- The module is read from text and compiled without an error. The two bytes of its string are printed as two
characters, and an assembler reads four bytes. -/
theorem string_read_accented :
    Module.parse "string @s = \"\u00e9\"\nfunc @main() -> void \x7b\ne:\n ret\n\x7d" = .ok accented ∧
      (StringConst.ofLiteral "s" "\u00e9").bytes = [195, 169] ∧
      ∃ asm s before inner rest, (assembly {} accented).run {} = .ok (asm, s) ∧
        asm = before ++ ("s_s: .asciiz \"" ++ inner ++ "\"\n") ++ rest ∧
        DataItem.readQuoted (utf8 (inner ++ "\"\n")) = some ([195, 131, 194, 169], [10]) := by
  have hread : Module.parse "string @s = \"\u00e9\"\nfunc @main() -> void \x7b\ne:\n ret\n\x7d" = .ok accented := by cbv
  obtain ⟨asm, s, hrun⟩ : ∃ asm s, (assembly {} accented).run {} = .ok (asm, s) := by
    have hok : ((assembly {} accented).run {}).toBool = true := by cbv
    cases hresult : (assembly {} accented).run {} with
    | error e =>
      rw [hresult] at hok
      cases hok
    | ok result => exact ⟨result.1, result.2, rfl⟩
  obtain ⟨earlier, later, inner, rest, -, hasm, hinner, -⟩ :=
    string_read_assembly_iff hrun (c := .ofLiteral "s" "\u00e9") (by simp [accented])
  exact ⟨hread, by decide, asm, s, _, inner, rest, hrun, hasm, hinner⟩

end Compile

end SsaCompiler
