import SsaCompiler.Text.Source

/-!
# Reading tokens from bytes

A line is held in the bytes of its UTF-8 form, and tokens are cut out of it between places that are counted in bytes.
The places are found by looking at one byte at a time; behind a backslash in a string literal two bytes are skipped
without a look at them. A cut at a place inside of a character, or behind the end of the line, crashes.
-/

set_option autoImplicit false

namespace SsaCompiler

namespace ByteScan

/-- The byte at a place of a line, as a character. -/
def byteAt (line : String) (i : Nat) (h : i < line.utf8ByteSize) : Char := Char.ofUInt8 (line.getUTF8Byte ⟨i⟩ h)

/-- The byte at a place that may be behind the end of a line. -/
def byteAt? (line : String) (i : Nat) : Option Char :=
  if h : i < line.utf8ByteSize then some (byteAt line i h) else none

/-- The part of a line between two places. -/
def slice (line : String) (start stop : Nat) : Outcome String :=
  if start ≤ stop ∧ String.Pos.Raw.IsValid line ⟨start⟩ ∧ String.Pos.Raw.IsValid line ⟨stop⟩ then
    return String.Pos.Raw.extract line ⟨start⟩ ⟨stop⟩
  else Outcome.crash

/-- The first place from a place on whose byte does not have a property, or the end of the line. -/
def skipWhile (p : Char → Bool) (line : String) (i : Nat) : Nat :=
  if h : i < line.utf8ByteSize then
    if p (byteAt line i h) then skipWhile p line (i + 1) else i
  else i
termination_by line.utf8ByteSize - i

/-- The place behind the quote that closes a string literal. -/
def closing? (line : String) (i : Nat) : Option Nat :=
  if h : i < line.utf8ByteSize then
    let c := byteAt line i h
    if c = '\\' then closing? line (i + 2)
    else if c = '"' then some (i + 1)
    else closing? line (i + 1)
  else none
termination_by line.utf8ByteSize - i

/-- Skipping does not go back. -/
theorem le_skipWhile (p : Char → Bool) (line : String) (i : Nat) : i ≤ skipWhile p line i := by
  fun_induction skipWhile p line i with
  | case1 i _ _ ih => exact Nat.le_of_succ_le ih
  | case2 | case3 => exact Nat.le_refl _

/-- A byte with the property is skipped. -/
theorem lt_skipWhile {p : Char → Bool} {line : String} {i : Nat} (h : i < line.utf8ByteSize)
    (hp : p (byteAt line i h) = true) : i < skipWhile p line i := by
  rw [skipWhile, dif_pos h, if_pos hp]
  exact le_skipWhile p line (i + 1)

/-- A literal is closed behind its start. -/
theorem lt_of_closing? {line : String} {i stop : Nat} (h : closing? line i = some stop) : i < stop := by
  fun_induction closing? line i with
  | case1 i _ _ _ ih => exact Nat.lt_of_succ_lt (Nat.lt_of_succ_lt (ih h))
  | case2 i => exact Option.some.inj h ▸ Nat.lt_succ_self i
  | case3 i _ _ _ _ ih => exact Nat.lt_of_succ_lt (ih h)
  | case4 => cases h

/-- A name may go on with what it may start with. -/
theorem isNameChar_of_start {c : Char} (h : (c.isAlpha || decide (c = '_')) = true) : Token.isNameChar c = true := by
  rcases Bool.or_eq_true_iff.1 h with hc | hc
  · simp [Token.isNameChar, Char.isAlphanum, hc]
  · simp [Token.isNameChar, of_decide_eq_true hc]

/-- The tokens of a line from a place on. -/
def scanFrom (number : Nat) (line : String) (i : Nat) : Outcome (List Token) :=
  if h : i < line.utf8ByteSize then
    let c := byteAt line i h
    if c = ';' then return []
    else if Token.isBlank c then scanFrom number line (i + 1)
    else if c = '%' || c = '@' || c = '^' then do
      let stop := skipWhile Token.isNameChar line (i + 1)
      have : i + 1 ≤ stop := le_skipWhile Token.isNameChar line (i + 1)
      if stop = i + 1 then faultAt number (.missingName c)
      else
        let name ← slice line (i + 1) stop
        return Token.named c name :: (← scanFrom number line stop)
    else if c = '"' then
      match hstop : closing? line (i + 1) with
      | none => faultAt number .unterminatedString
      | some stop => do
        have : i + 1 < stop := lt_of_closing? hstop
        let literal ← slice line i stop
        return .str literal :: (← scanFrom number line stop)
    else if c = '-' && byteAt? line (i + 1) = some '>' then
      return .arrow :: (← scanFrom number line (i + 2))
    else if c = '-' || c.isDigit then do
      let stop := skipWhile Char.isDigit line (i + 1)
      have : i + 1 ≤ stop := le_skipWhile Char.isDigit line (i + 1)
      let literal ← slice line i stop
      match Token.intValue? literal.toList with
      | none => faultAt number (.invalidInteger literal)
      | some n => return .int n :: (← scanFrom number line stop)
    else if Token.separators.contains c then return .punct c :: (← scanFrom number line (i + 1))
    else if hname : c.isAlpha || c = '_' then do
      let stop := skipWhile Token.isNameChar line i
      have : i < stop := lt_skipWhile h (isNameChar_of_start hname)
      let name ← slice line i stop
      return .ident name :: (← scanFrom number line stop)
    else do
      let rest ← slice line i line.utf8ByteSize
      faultAt number (.unexpectedCharacter (rest.toList.headD '?'))
  else return []
termination_by line.utf8ByteSize - i

/-- The tokens of a line. -/
def tokens (number : Nat) (line : String) : Outcome (List Token) := scanFrom number line 0

/-- The lines of a text that hold tokens. -/
def tokenLines (text : String) : Outcome (List TokenLine) := do
  let scanned ← (Text.lines text).zipIdx.mapM fun (line, i) => do
    return { number := i + 1, tokens := ← tokens (i + 1) line : TokenLine }
  return scanned.filter fun l => !l.tokens.isEmpty

end ByteScan

end SsaCompiler
