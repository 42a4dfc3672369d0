/-!
# Machine words

A word is a 32-bit two's-complement number. Plain `+`, `-`, `*` wrap; the operations of this file
that end in `?` instead refuse a result outside the word range.
-/

set_option autoImplicit false

namespace SsaCompiler

/-- A 32-bit machine word, read as a signed number. -/
abbrev Word := Int32

namespace Word

/-- The least word. -/
def minInt : Int := -2147483648

/-- The greatest word. -/
def maxInt : Int := 2147483647

/-- Whether an integer is the value of some word. -/
def inRange (n : Int) : Bool := minInt ≤ n && n ≤ maxInt

/-- The word with value `n`, if there is one. -/
def ofInt? (n : Int) : Option Word := if inRange n then some (Int32.ofInt n) else none

/-- The sum, unless it leaves the word range. -/
def add? (a b : Word) : Option Word := ofInt? (a.toInt + b.toInt)

/-- The product, unless it leaves the word range. -/
def mul? (a b : Word) : Option Word := ofInt? (a.toInt * b.toInt)

/-- The negation, unless it leaves the word range. -/
def neg? (a : Word) : Option Word := ofInt? (-a.toInt)

/-- Truth as a word: one for true, zero for false. -/
def ofBool (b : Bool) : Word := if b then 1 else 0

/-- Whether a word fits a sign-extended 16-bit field. -/
def fitsSigned16 (c : Word) : Bool := -32768 ≤ c.toInt && c.toInt ≤ 32767

/-- Whether a word fits a zero-extended 16-bit field. -/
def fitsUnsigned16 (c : Word) : Bool := 0 ≤ c.toInt && c.toInt ≤ 65535

/-- The decimal text of a word. -/
def text (c : Word) : String := toString c.toInt

end Word

end SsaCompiler
