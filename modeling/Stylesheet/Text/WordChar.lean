import Stylesheet.Text.Age
import Stylesheet.Text.Alphabetic
import Stylesheet.Text.Mark
import Stylesheet.Text.Numeral

set_option autoImplicit false

/-! # Characters of names

Two character classes decide what belongs to a name. A *word* character may stand in a selector:
it is alphabetic, a combining mark, a decimal digit, a connector or one of the two zero-width
joiners. An *alphanumeric* character may stand in an at-rule name: it is alphabetic or a numeral
of any kind. ASCII characters are decided by the ASCII rule, all others by table.

The two classes follow different versions of the Unicode Standard: at-rule names that of version
17, words that of version 16, to which the characters of the newest age are still unassigned. -/

namespace Stylesheet.Text

def isAscii (c : Char) : Bool := c.toNat < 0x80

/-- A letter `A-Z` or `a-z`. -/
def isAsciiLetter (c : Char) : Bool :=
  let n := c.toNat
  (0x41 ≤ n && n ≤ 0x5A) || (0x61 ≤ n && n ≤ 0x7A)

/-- A digit `0-9`. -/
def isAsciiDigit (c : Char) : Bool := 0x30 ≤ c.toNat && c.toNat ≤ 0x39

/-- A character of a declaration's name: an ASCII letter or digit, `_` or `-`. -/
def isNameChar (c : Char) : Bool :=
  isAsciiLetter c || isAsciiDigit c || c == '_' || c == '-'

/-- A word character in the sense of Unicode regular expressions, as of version 16. -/
def isWord (c : Char) : Bool :=
  if isAscii c then isAsciiLetter c || isAsciiDigit c || c == '_'
  else !newestAge.contains c &&
    (alphabetic.contains c || mark.contains c || decimalDigit.contains c ||
      connector.contains c || c.toNat == 0x200C || c.toNat == 0x200D)

/-- Alphabetic or numeric, as of version 17. -/
def isAlphanumeric (c : Char) : Bool :=
  if isAscii c then isAsciiLetter c || isAsciiDigit c
  else alphabetic.contains c || decimalDigit.contains c || otherNumeral.contains c

/-- On ASCII the two classes differ in the low line only. -/
theorem isWord_of_isAscii {c : Char} (h : isAscii c = true) :
    isWord c = (isAlphanumeric c || c == '_') := by
  simp [isWord, isAlphanumeric, h]

/-! ## Letter case -/

/-- The text with `A-Z` turned into `a-z` and every other character kept. -/
def lower (s : String) : String := String.ofList (s.toList.map Char.toLower)

@[simp] theorem toList_lower (s : String) : (lower s).toList = s.toList.map Char.toLower := by
  simp [lower]

/-- The two texts differ at most in the case of ASCII letters. -/
def sameIgnoringCase (a b : List Char) : Bool := a.map Char.toLower == b.map Char.toLower

end Stylesheet.Text
