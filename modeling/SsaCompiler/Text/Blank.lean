/-!
# Blanks and words

The blanks are the characters with the Unicode property `White_Space`. A text is trimmed by
dropping the blanks at its two ends, and its words are the longest runs without a blank.
-/

set_option autoImplicit false

namespace SsaCompiler

namespace Text

/-- The ranges of code points with the property `White_Space`, in ascending order. -/
def blankRanges : List (Nat × Nat) :=
  [(0x9, 0xD), (0x20, 0x20), (0x85, 0x85), (0xA0, 0xA0), (0x1680, 0x1680), (0x2000, 0x200A),
    (0x2028, 0x2029), (0x202F, 0x202F), (0x205F, 0x205F), (0x3000, 0x3000)]

/-- Whether a character is a blank. -/
def isBlank (c : Char) : Bool := blankRanges.any fun r => r.1 ≤ c.toNat && c.toNat ≤ r.2

/-- The characters without the blanks at both ends. -/
def trimmed (cs : List Char) : List Char :=
  ((cs.dropWhile isBlank).reverse.dropWhile isBlank).reverse

/-- A text without the blanks at both ends. -/
def trim (s : String) : String := String.ofList (trimmed s.toList)

/-- The words of a text, the characters of the first word so far in `word`, latest first. -/
def wordsFrom (word : List Char) : List Char → List (List Char)
  | [] => if word.isEmpty then [] else [word.reverse]
  | c :: rest =>
    if isBlank c then
      if word.isEmpty then wordsFrom [] rest else word.reverse :: wordsFrom [] rest
    else wordsFrom (c :: word) rest

/-- The words of a text. -/
def words (s : String) : List String := (wordsFrom [] s.toList).map String.ofList

/-- What stands behind `lead` in a text that starts with it. -/
def after? (lead s : String) : Option String :=
  if lead.toList.isPrefixOf s.toList then some (String.ofList (s.toList.drop lead.length)) else none

/-- Whether a pattern stands somewhere in a list of characters. The empty pattern stands in every
one. -/
def occursIn (pattern : List Char) : List Char → Bool
  | [] => pattern.isEmpty
  | c :: rest => pattern.isPrefixOf (c :: rest) || occursIn pattern rest

/-- Whether a text contains a pattern. -/
def contains (s pattern : String) : Bool := occursIn pattern.toList s.toList

end Text

end SsaCompiler
