import SsaCompiler.Text.ByteScan
import Mathlib

/-!
# Tokens of bytes and of characters

Cutting a line by its bytes gives the tokens that its characters give, with the same faults, and never crashes. For a
byte that a test of the scanner tells apart is a whole character: the bytes of all longer characters are of 128 or more.
So every place at which a piece starts or ends lies between characters (`slice_ofList`); behind a backslash the scanner
may stand inside of a character, but then it skips what is left of it (`closing?_inside`).
-/

set_option autoImplicit false

namespace SsaCompiler

namespace ByteScan

open String (utf8Len)

/-! ## Bytes of characters -/

/-- A character of one byte. -/
theorem encode_ascii {c : Char} (h : c.toNat < 128) : String.utf8EncodeChar c = [c.val.toUInt8] :=
  String.utf8EncodeChar_eq_singleton (Char.utf8Size_eq_one_iff.2 (UInt32.le_iff_toNat_le.2 (Nat.le_of_lt_succ h)))

theorem size_ascii {c : Char} (h : c.toNat < 128) : c.utf8Size = 1 := by
  rw [← String.length_utf8EncodeChar, encode_ascii h, List.length_singleton]

/-- The byte of such a character is its code. -/
theorem ofUInt8_ascii {c : Char} (h : c.toNat < 128) : Char.ofUInt8 c.val.toUInt8 = c := by
  apply Char.ext
  apply UInt32.toNat_inj.1
  change c.val.toUInt8.toUInt32.toNat = c.val.toNat
  have hc : c.val.toNat < 128 := h
  rw [UInt8.toNat_toUInt32, UInt32.toNat_toUInt8]
  omega

/-- The bytes of a longer character are no codes of one byte. -/
theorem le_of_mem_encode {c : Char} (h : 128 ≤ c.toNat) {b : UInt8} (hb : b ∈ String.utf8EncodeChar c) :
    128 ≤ (Char.ofUInt8 b).toNat := by
  have hc : ¬ c.val.toNat ≤ 127 := Nat.not_le_of_lt h
  change 128 ≤ b.toUInt32.toNat
  rw [UInt8.toNat_toUInt32]
  unfold String.utf8EncodeChar at hb
  simp only [if_neg hc] at hb
  split at hb
  · simp only [List.mem_cons, List.not_mem_nil, or_false] at hb
    rcases hb with rfl | rfl <;> simp only [UInt8.toNat_ofNat'] <;> omega
  split at hb
  · simp only [List.mem_cons, List.not_mem_nil, or_false] at hb
    rcases hb with rfl | rfl | rfl <;> simp only [UInt8.toNat_ofNat'] <;> omega
  · simp only [List.mem_cons, List.not_mem_nil, or_false] at hb
    rcases hb with rfl | rfl | rfl | rfl <;> simp only [UInt8.toNat_ofNat'] <;> omega

/-! ## Places in a line -/

section Places

variable (l r : List Char) {c : Char}

/-- A line is as long as its parts. -/
theorem utf8ByteSize_append : (String.ofList (l ++ r)).utf8ByteSize = utf8Len l + utf8Len r := by
  rw [String.utf8ByteSize_ofList, String.utf8Len_append]

/-- The place behind a character. -/
theorem utf8Len_snoc (c : Char) : utf8Len (l ++ [c]) = utf8Len l + c.utf8Size := by
  rw [String.utf8Len_append, String.utf8Len_cons, String.utf8Len_nil, Nat.zero_add]

/-- The places in a character are in the line. -/
theorem lt_size {k : Nat} (hk : k < c.utf8Size) : utf8Len l + k < (String.ofList (l ++ c :: r)).utf8ByteSize := by
  rw [utf8ByteSize_append, String.utf8Len_cons]
  omega

/-- The bytes of a character are found in the line. -/
theorem byteAt_ofList {k : Nat} (hk : k < (String.utf8EncodeChar c).length)
    (h : utf8Len l + k < (String.ofList (l ++ c :: r)).utf8ByteSize) :
    byteAt (String.ofList (l ++ c :: r)) (utf8Len l + k) h = Char.ofUInt8 (String.utf8EncodeChar c)[k] := by
  have hsize : l.utf8Encode.size = utf8Len l := by
    rw [← String.toByteArray_ofList, String.size_toByteArray, String.utf8ByteSize_ofList]
  unfold byteAt String.getUTF8Byte
  congr 1
  have hbytes : (String.ofList (l ++ c :: r)).toByteArray =
      l.utf8Encode ++ ((String.utf8EncodeChar c).toByteArray ++ r.utf8Encode) := by
    rw [String.toByteArray_ofList, List.utf8Encode_append, List.utf8Encode_cons, List.utf8Encode_singleton]
  simp only [hbytes]
  rw [ByteArray.getElem_append_right (by rw [hsize]; exact Nat.le_add_right _ _)]
  simp only [hsize, Nat.add_sub_cancel_left]
  rw [ByteArray.getElem_append_left (by rwa [List.size_toByteArray]), List.getElem_toByteArray]

/-- The byte at a character of one byte is the character. -/
theorem byteAt_ascii (hc : c.toNat < 128) (h : utf8Len l < (String.ofList (l ++ c :: r)).utf8ByteSize) :
    byteAt (String.ofList (l ++ c :: r)) (utf8Len l) h = c := by
  have hbyte := @byteAt_ofList l r c 0 (by rw [encode_ascii hc]; exact Nat.one_pos) h
  simp only [encode_ascii hc, List.getElem_cons_zero] at hbyte
  exact hbyte.trans (ofUInt8_ascii hc)

/-- The bytes at a longer character are none of the codes of one byte. -/
theorem le_byteAt (hc : 128 ≤ c.toNat) {k : Nat} (hk : k < c.utf8Size)
    (h : utf8Len l + k < (String.ofList (l ++ c :: r)).utf8ByteSize) :
    128 ≤ (byteAt (String.ofList (l ++ c :: r)) (utf8Len l + k) h).toNat := by
  rw [byteAt_ofList l r (by rwa [String.length_utf8EncodeChar]) h]
  exact le_of_mem_encode hc (List.getElem_mem _)

/-- A test that only characters of one byte pass has the same answer for a character and for its first byte. -/
theorem test_byteAt {p : Char → Bool} (hp : ∀ d : Char, 128 ≤ d.toNat → p d = false)
    (h : utf8Len l < (String.ofList (l ++ c :: r)).utf8ByteSize) :
    p (byteAt (String.ofList (l ++ c :: r)) (utf8Len l) h) = p c := by
  by_cases hc : c.toNat < 128
  · rw [byteAt_ascii l r hc h]
  · have hc' := Nat.le_of_not_lt hc
    exact (hp _ (le_byteAt l r hc' c.utf8Size_pos h)).trans (hp c hc').symm

/-- The byte at a character is a given one of one byte iff the character is. -/
theorem byteAt_eq_iff {d : Char} (hd : d.toNat < 128) (h : utf8Len l < (String.ofList (l ++ c :: r)).utf8ByteSize) :
    byteAt (String.ofList (l ++ c :: r)) (utf8Len l) h = d ↔ c = d := by
  have htest := @test_byteAt l r c (fun x => decide (x = d))
    (fun x hx => decide_eq_false fun heq => absurd (heq ▸ hx) (Nat.not_le_of_lt hd)) h
  exact decide_eq_decide.1 htest

/-- A piece between two places that lie between characters. -/
theorem slice_ofList (m : List Char) :
    slice (String.ofList (l ++ (m ++ r))) (utf8Len l) (utf8Len (l ++ m)) = .ok (String.ofList m) := by
  have hvalid : ∀ a b : List Char, String.Pos.Raw.IsValid (String.ofList (a ++ b)) ⟨utf8Len a⟩ := fun a b =>
    String.Pos.Raw.isValid_iff_exists_append.2 ⟨String.ofList a, String.ofList b, String.ofList_append,
      congrArg String.Pos.Raw.mk (String.utf8ByteSize_ofList a).symm⟩
  unfold slice
  rw [if_pos ⟨by rw [String.utf8Len_append]; exact Nat.le_add_right _ _, hvalid l (m ++ r), by
    rw [← List.append_assoc]; exact hvalid (l ++ m) r⟩, ← List.append_assoc, String.utf8Len_append,
    String.extract_of_valid]
  rfl

end Places

/-! ## Finding places -/

/-- What has a property is skipped, whole characters at a time. -/
theorem skipWhile_ofList {p : Char → Bool} (hp : ∀ d : Char, 128 ≤ d.toNat → p d = false) (l r : List Char) :
    skipWhile p (String.ofList (l ++ r)) (utf8Len l) = utf8Len (l ++ r.takeWhile p) := by
  induction r generalizing l with
  | nil =>
    rw [skipWhile, dif_neg (by rw [utf8ByteSize_append]; exact Nat.lt_irrefl _), List.takeWhile_nil, List.append_nil]
  | cons c rest ih =>
    have hlt : utf8Len l < (String.ofList (l ++ c :: rest)).utf8ByteSize := lt_size l rest c.utf8Size_pos
    rw [skipWhile, dif_pos hlt, test_byteAt l rest hp, List.takeWhile_cons]
    cases hc : p c with
    | false => simp
    | true =>
      have hascii : c.toNat < 128 := by
        by_contra hlarge
        rw [hp c (Nat.le_of_not_lt hlarge)] at hc
        cases hc
      have hrest := ih (l ++ [c])
      rw [utf8Len_snoc, size_ascii hascii] at hrest
      simpa using hrest

/-- Inside of a character, what is left of it is skipped. -/
theorem closing?_inside (l r : List Char) {c : Char} {k : Nat} (hpos : 0 < k) (hk : k ≤ c.utf8Size) :
    closing? (String.ofList (l ++ c :: r)) (utf8Len l + k) = closing? (String.ofList (l ++ c :: r)) (utf8Len (l ++ [c])) := by
  induction hn : c.utf8Size - k generalizing k with
  | zero => rw [utf8Len_snoc, Nat.le_antisymm hk (Nat.le_of_sub_eq_zero hn)]
  | succ n ih =>
    have hlt := lt_size l r (c := c) (k := k) (by omega)
    have hlarge : 128 ≤ c.toNat := by
      by_contra hsmall
      have hone := size_ascii (Nat.lt_of_not_le hsmall)
      omega
    have hbyte := le_byteAt l r hlarge (by omega) hlt
    rw [closing?, dif_pos hlt, if_neg (fun heq => by rw [heq] at hbyte; exact absurd hbyte (by decide)),
      if_neg (fun heq => by rw [heq] at hbyte; exact absurd hbyte (by decide))]
    exact ih (Nat.succ_pos k) (by omega) (by omega)

/-- A character that is neither a backslash nor a quote is skipped. -/
theorem closing?_cons (l r : List Char) {c : Char} (hbackslash : c ≠ '\\') (hquote : c ≠ '"') :
    closing? (String.ofList (l ++ c :: r)) (utf8Len l) = closing? (String.ofList (l ++ c :: r)) (utf8Len (l ++ [c])) := by
  have hlt : utf8Len l < (String.ofList (l ++ c :: r)).utf8ByteSize := lt_size l r c.utf8Size_pos
  rw [closing?, dif_pos hlt, if_neg (mt (byteAt_eq_iff l r (by decide) hlt).1 hbackslash),
    if_neg (mt (byteAt_eq_iff l r (by decide) hlt).1 hquote)]
  exact closing?_inside l r Nat.one_pos c.utf8Size_pos

/-- The place behind a literal is the place behind the characters of it. -/
theorem closing?_ofList (l r : List Char) : closing? (String.ofList (l ++ r)) (utf8Len l) =
    (Token.closing? r).map fun n => utf8Len (l ++ r.take n) := by
  fun_induction Token.closing? r generalizing l with
  | case1 => rw [closing?, dif_neg (by rw [utf8ByteSize_append]; exact Nat.lt_irrefl _), Option.map_none]
  | case2 d rest ih =>
    have hlt : utf8Len l < (String.ofList (l ++ '\\' :: d :: rest)).utf8ByteSize := lt_size l _ (Char.utf8Size_pos _)
    have hrest := ih (l ++ ['\\', d])
    have hinside := closing?_inside (l ++ ['\\']) rest (c := d) Nat.one_pos d.utf8Size_pos
    rw [utf8Len_snoc, List.append_assoc, List.append_assoc] at hinside
    rw [closing?, dif_pos hlt, if_pos ((byteAt_eq_iff l _ (by decide) hlt).2 rfl)]
    rw [List.append_assoc] at hrest
    refine hinside.trans (hrest.trans ?_)
    rw [Option.map_map]
    congr 1
    funext n
    rw [Function.comp_apply, List.append_assoc]
    rfl
  | case3 =>
    have hlt : utf8Len l < (String.ofList (l ++ ['\\'])).utf8ByteSize := lt_size l [] (Char.utf8Size_pos _)
    rw [closing?, dif_pos hlt, if_pos ((byteAt_eq_iff l _ (by decide) hlt).2 rfl), closing?, dif_neg]
    · rfl
    · rw [utf8ByteSize_append]
      exact Nat.not_lt_of_le (Nat.le_succ _)
  | case4 rest =>
    have hlt : utf8Len l < (String.ofList (l ++ '"' :: rest)).utf8ByteSize := lt_size l rest (Char.utf8Size_pos _)
    rw [closing?, dif_pos hlt, if_neg (mt (byteAt_eq_iff l _ (by decide) hlt).1 (by decide)),
      if_pos ((byteAt_eq_iff l _ (by decide) hlt).2 rfl), Option.map_some, List.take_succ_cons, List.take_zero, utf8Len_snoc]
    rfl
  | case5 c rest hescape hend hquote ih =>
    have hbackslash : c ≠ '\\' := by
      rintro rfl
      cases rest with
      | nil => exact hend rfl rfl
      | cons d rest => exact hescape d rest rfl rfl
    have hrest := ih (l ++ [c])
    rw [List.append_assoc] at hrest
    refine (closing?_cons l rest hbackslash hquote).trans (hrest.trans ?_)
    rw [Option.map_map]
    congr 1
    funext n
    rw [Function.comp_apply, List.append_assoc]
    rfl

/-! ## Tokens -/

/-- The byte behind a place is a given one of one byte iff the next character is. -/
theorem byteAt?_eq_some_iff (l r : List Char) {d : Char} (hd : d.toNat < 128) :
    byteAt? (String.ofList (l ++ r)) (utf8Len l) = some d ↔ r.head? = some d := by
  cases r with
  | nil =>
    unfold byteAt?
    rw [dif_neg (by rw [utf8ByteSize_append]; exact Nat.lt_irrefl _)]
    simp
  | cons c rest =>
    have hlt : utf8Len l < (String.ofList (l ++ c :: rest)).utf8ByteSize := lt_size l rest c.utf8Size_pos
    unfold byteAt?
    rw [dif_pos hlt, List.head?_cons, Option.some_inj, Option.some_inj]
    exact byteAt_eq_iff l rest hd hlt

section Behind

variable {c : Char} (hc : c.toNat < 128) (l rest : List Char)

include hc

/-- The place behind a character of one byte. -/
theorem place_behind : utf8Len l + 1 = utf8Len (l ++ [c]) := by
  rw [utf8Len_snoc, size_ascii hc]

theorem skipWhile_behind {p : Char → Bool} (hp : ∀ d : Char, 128 ≤ d.toNat → p d = false) :
    skipWhile p (String.ofList (l ++ c :: rest)) (utf8Len l + 1) = utf8Len (l ++ c :: rest.takeWhile p) := by
  have h := skipWhile_ofList hp (l ++ [c]) rest
  rwa [List.append_assoc, List.append_assoc, ← place_behind hc] at h

theorem closing?_behind : closing? (String.ofList (l ++ c :: rest)) (utf8Len l + 1) =
    (Token.closing? rest).map fun n => utf8Len (l ++ c :: rest.take n) := by
  have h := closing?_ofList (l ++ [c]) rest
  simp only [List.append_assoc, List.singleton_append] at h
  rwa [← place_behind hc] at h

theorem byteAt?_behind {d : Char} (hd : d.toNat < 128) :
    byteAt? (String.ofList (l ++ c :: rest)) (utf8Len l + 1) = some d ↔ rest.head? = some d := by
  have h := byteAt?_eq_some_iff (l ++ [c]) rest hd
  rwa [List.append_assoc, ← place_behind hc] at h

theorem slice_behind (m t : List Char) :
    slice (String.ofList (l ++ c :: (m ++ t))) (utf8Len l + 1) (utf8Len (l ++ c :: m)) = .ok (String.ofList m) := by
  have h := slice_ofList (l ++ [c]) t m
  rwa [List.append_assoc, List.append_assoc, ← place_behind hc] at h

end Behind

/-- A letter or a digit is a character of one byte. -/
theorem isAlphanum_large (d : Char) (hd : 128 ≤ d.toNat) : d.isAlphanum = false := by
  have hval : 128 ≤ d.val.toNat := hd
  simp only [Char.isAlphanum, Char.isAlpha, Char.isUpper, Char.isLower, Char.isDigit, Bool.or_eq_false_iff,
    Bool.and_eq_false_iff, decide_eq_false_iff_not, ge_iff_le, UInt32.le_iff_toNat_le, not_le]
  have hZ : 'Z'.val.toNat = 90 := rfl
  have hz : 'z'.val.toNat = 122 := rfl
  have h9 : '9'.val.toNat = 57 := rfl
  omega

theorem isDigit_large (d : Char) (hd : 128 ≤ d.toNat) : d.isDigit = false :=
  (Bool.or_eq_false_iff.1 (isAlphanum_large d hd)).2

theorem isNameChar_large (d : Char) (hd : 128 ≤ d.toNat) : Token.isNameChar d = false := by
  have hne : ∀ e : Char, e.toNat < 128 → (d == e) = false := fun e he =>
    beq_eq_false_iff_ne.2 fun heq => absurd (heq ▸ hd) (Nat.not_le_of_lt he)
  rw [Token.isNameChar, isAlphanum_large d hd, hne '_' (by decide), hne '.' (by decide)]
  rfl

/-- One token and those behind it. -/
theorem mapError_cons (f : TextFault → Failure) (t : Token) (more : Except TextFault (List Token)) :
    Except.mapError f (do return t :: (← more)) = (do return t :: (← more.mapError f)) := by
  cases more <;> rfl

/-- A character that starts no token. -/
structure Strange (d : Char) : Prop where
  comment : d ≠ ';'
  blank : ¬ Token.isBlank d = true
  sigil : ¬ (decide (d = '%') || decide (d = '@') || decide (d = '^')) = true
  quote : d ≠ '"'
  arrow : ∀ b : Bool, ¬ (decide (d = '-') && b) = true
  digit : ¬ (decide (d = '-') || d.isDigit) = true
  punct : ¬ Token.separators.contains d = true
  name : ¬ (d.isAlpha || decide (d = '_')) = true

/-- No longer character starts a token, and none of its bytes does. -/
theorem Strange.of_large {d : Char} (hd : 128 ≤ d.toNat) : Strange d := by
  have hne : ∀ e : Char, e.toNat < 128 → d ≠ e := fun e he heq => absurd (heq ▸ hd) (Nat.not_le_of_lt he)
  have halnum := isAlphanum_large d hd
  rw [Char.isAlphanum, Bool.or_eq_false_iff] at halnum
  constructor <;>
    simp [Token.isBlank, Token.separators, halnum.1, halnum.2, hne ';' (by decide), hne ' ' (by decide), hne '\t' (by decide),
      hne '\r' (by decide), hne '%' (by decide), hne '@' (by decide), hne '^' (by decide), hne '"' (by decide),
      hne '-' (by decide), hne '=' (by decide), hne ',' (by decide), hne '(' (by decide), hne ')' (by decide),
      hne '[' (by decide), hne ']' (by decide), hne '\x7b' (by decide), hne '\x7d' (by decide), hne ':' (by decide),
      hne '_' (by decide)]

/-- At a longer character the scanner stops, and reports it whole. -/
theorem scanFrom_large (number : Nat) (l rest : List Char) {c : Char} (hc : 128 ≤ c.toNat) :
    scanFrom number (String.ofList (l ++ c :: rest)) (utf8Len l) =
      (Token.scan (c :: rest)).mapError fun fault => .error (.parse number fault) := by
  have hlt : utf8Len l < (String.ofList (l ++ c :: rest)).utf8ByteSize := lt_size l rest c.utf8Size_pos
  have hchar := Strange.of_large hc
  have hbyte : Strange (byteAt (String.ofList (l ++ c :: rest)) (utf8Len l) hlt) :=
    Strange.of_large (le_byteAt l rest hc c.utf8Size_pos hlt)
  have hrest := slice_ofList l [] (c :: rest)
  rw [List.append_nil] at hrest
  rw [Token.scan, if_neg hchar.comment, if_neg hchar.blank, if_neg hchar.sigil, if_neg hchar.quote,
    if_neg (hchar.arrow _), if_neg hchar.digit, if_neg hchar.punct, if_neg hchar.name, scanFrom, dif_pos hlt]
  dsimp only
  rw [if_neg hbyte.comment, if_neg hbyte.blank, if_neg hbyte.sigil, if_neg hbyte.quote, if_neg (hbyte.arrow _),
    if_neg hbyte.digit, if_neg hbyte.punct, dif_neg hbyte.name, String.utf8ByteSize_ofList, hrest]
  dsimp only [Bind.bind, Except.bind]
  rw [String.toList_ofList]
  rfl

/-- Cutting by bytes gives the tokens of the characters. -/
theorem scanFrom_ofList (number : Nat) (l r : List Char) : scanFrom number (String.ofList (l ++ r)) (utf8Len l) =
    (Token.scan r).mapError fun fault => .error (.parse number fault) := by
  induction hn : r.length using Nat.strongRecOn generalizing l r with
  | ind n ih =>
    subst hn
    cases r with
    | nil =>
      rw [scanFrom, dif_neg (by rw [utf8ByteSize_append]; exact Nat.lt_irrefl _), Token.scan]
      rfl
    | cons c rest =>
      by_cases hc : c.toNat < 128
      case neg => exact scanFrom_large number l rest (Nat.le_of_not_lt hc)
      have hlt : utf8Len l < (String.ofList (l ++ c :: rest)).utf8ByteSize := lt_size l rest c.utf8Size_pos
      have hnext := place_behind hc l
      -- the scanner goes on behind any characters, and what it has passed is a piece of the line
      have hgo : ∀ m t, rest = m ++ t → scanFrom number (String.ofList (l ++ c :: rest)) (utf8Len (l ++ c :: m)) =
          (Token.scan t).mapError fun fault => .error (.parse number fault) := by
        rintro m t rfl
        have hrest := ih t.length (by rw [List.length_cons, List.length_append]; omega) (l ++ c :: m) t rfl
        rwa [List.append_assoc] at hrest
      have hpiece : ∀ m t, rest = m ++ t → slice (String.ofList (l ++ c :: rest)) (utf8Len l) (utf8Len (l ++ c :: m)) =
          .ok (String.ofList (c :: m)) := by
        rintro m t rfl
        exact slice_ofList l t (c :: m)
      have hparts : ∀ p : Char → Bool, rest = rest.takeWhile p ++ rest.drop (rest.takeWhile p).length := fun p =>
        (List.prefix_iff_eq_append.1 (List.takeWhile_prefix p)).symm
      rw [scanFrom, dif_pos hlt, Token.scan]
      simp only [byteAt_ascii l rest hc hlt]
      by_cases hcomment : c = ';'
      · rw [if_pos hcomment, if_pos hcomment]
        rfl
      rw [if_neg hcomment, if_neg hcomment]
      by_cases hblank : Token.isBlank c = true
      · rw [if_pos hblank, if_pos hblank, hnext]
        exact hgo [] rest rfl
      rw [if_neg hblank, if_neg hblank]
      by_cases hsigil : (decide (c = '%') || decide (c = '@') || decide (c = '^')) = true
      · rw [if_pos hsigil, if_pos hsigil, skipWhile_behind hc l rest isNameChar_large]
        cases hname : rest.takeWhile Token.isNameChar with
        | nil =>
          rw [if_pos hnext.symm]
          rfl
        | cons d m =>
          have hname' := hparts Token.isNameChar
          rw [hname] at hname'
          have hne : utf8Len (l ++ c :: d :: m) ≠ utf8Len l + 1 := by
            rw [hnext, List.append_cons, String.utf8Len_append, String.utf8Len_cons]
            have hd := d.utf8Size_pos
            omega
          have hslice := slice_behind hc l (d :: m) (rest.drop (d :: m).length)
          rw [← hname'] at hslice
          rw [if_neg hne, hslice, List.isEmpty_cons, if_neg Bool.false_ne_true, mapError_cons, ← hgo _ _ hname']
          rfl
      rw [if_neg hsigil, if_neg hsigil]
      by_cases hquote : c = '"'
      · rw [if_pos hquote, if_pos hquote]
        have hclosing := closing?_behind hc l rest
        split
        · rename_i hnone
          rw [hnone, eq_comm, Option.map_eq_none_iff] at hclosing
          rw [hclosing]
          rfl
        · rename_i stop hstop
          rw [hstop, eq_comm, Option.map_eq_some_iff] at hclosing
          obtain ⟨n, hn, rfl⟩ := hclosing
          have hn' := (List.take_append_drop n rest).symm
          rw [hn, hpiece _ _ hn', mapError_cons, ← hgo _ _ hn']
          rfl
      rw [if_neg hquote, if_neg hquote]
      simp only [byteAt?_behind hc l rest (show '>'.toNat < 128 by decide)]
      by_cases harrow : (decide (c = '-') && decide (rest.head? = some '>')) = true
      · rw [if_pos harrow, if_pos harrow]
        obtain ⟨more, rfl⟩ := List.head?_eq_some_iff.1 (of_decide_eq_true (Bool.and_eq_true_iff.1 harrow).2)
        have hplace : utf8Len l + 2 = utf8Len (l ++ c :: ['>']) := by
          rw [List.append_cons l c ['>'], utf8Len_snoc, ← hnext]
          rfl
        rw [hplace, hgo ['>'] more rfl, mapError_cons]
        rfl
      rw [if_neg harrow, if_neg harrow]
      by_cases hdigit : (decide (c = '-') || c.isDigit) = true
      · rw [if_pos hdigit, if_pos hdigit, skipWhile_behind hc l rest isDigit_large, hpiece _ _ (hparts _)]
        dsimp only [Bind.bind, Except.bind]
        rw [String.toList_ofList]
        cases hint : Token.intValue? (c :: rest.takeWhile Char.isDigit) with
        | none => rfl
        | some n =>
          rw [List.length_cons, Nat.add_sub_cancel]
          dsimp only
          rw [hgo _ _ (hparts _)]
          exact (mapError_cons _ _ _).symm
      rw [if_neg hdigit, if_neg hdigit]
      by_cases hpunct : Token.separators.contains c = true
      · rw [if_pos hpunct, if_pos hpunct, hnext, hgo [] rest rfl]
        exact (mapError_cons _ _ _).symm
      rw [if_neg hpunct, if_neg hpunct]
      by_cases hname : (c.isAlpha || decide (c = '_')) = true
      · have hstop : skipWhile Token.isNameChar (String.ofList (l ++ c :: rest)) (utf8Len l) =
            utf8Len (l ++ c :: rest.takeWhile Token.isNameChar) := by
          rw [skipWhile_ofList isNameChar_large, List.takeWhile_cons_of_pos (isNameChar_of_start hname)]
        rw [dif_pos hname, if_pos hname, hstop, hpiece _ _ (hparts _)]
        dsimp only [Bind.bind, Except.bind]
        rw [hgo _ _ (hparts _)]
        exact (mapError_cons _ _ _).symm
      · have hrest := slice_ofList l [] (c :: rest)
        rw [List.append_nil] at hrest
        rw [dif_neg hname, if_neg hname, String.utf8ByteSize_ofList, hrest]
        dsimp only [Bind.bind, Except.bind]
        rw [String.toList_ofList]
        rfl

/-- Cutting a line by its bytes gives what cutting it by its characters gives; it never crashes. -/
theorem tokens_eq (number : Nat) (line : String) :
    tokens number line = (Token.scan line.toList).mapError fun fault => .error (.parse number fault) := by
  have h := scanFrom_ofList number [] line.toList
  rwa [List.nil_append, String.ofList_toList] at h

/-- Behind the backslash the scanner stands between the two bytes of a character. -/
example : tokens 1 "\"\\\u00e9\" ;" = .ok [.str "\"\\\u00e9\""] := by
  rw [tokens_eq]
  cbv

/-- So a text has the same lines with tokens. -/
theorem tokenLines_eq (text : String) : tokenLines text = Source.tokenLines text := by
  unfold tokenLines Source.tokenLines
  congr 2
  funext (line, i)
  dsimp only
  rw [tokens_eq]
  cases Token.scan line.toList <;> rfl

end ByteScan

end SsaCompiler
