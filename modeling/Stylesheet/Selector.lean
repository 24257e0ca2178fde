import Stylesheet.Text.Blank
import Stylesheet.Text.WordChar

set_option autoImplicit false

/-! # The selector alphabet

A selector is a text over a fixed alphabet: word characters, blanks and the punctuation of
combinators, attributes, pseudo-classes and keyframe percentages. The scanner uses the alphabet to
tell a selector from a malformed header and the selector check uses it to name the character at
fault, so that both mean the same by a selector. -/

namespace Stylesheet.Selector

/-- The punctuation a selector may hold. -/
def punctuation : List Char :=
  ['.', '#', '*', '[', ']', '=', '"', '\'', '-', ':', '>', '+', '~', ',', '(', ')', '%', '^', '$',
   '|', '\\']

/-- A character that may stand in a selector. -/
def isAllowed (c : Char) : Bool := Text.isWord c || Text.isBlank c || punctuation.contains c

/-- The first character that may not stand in a selector. -/
def firstForbidden? (cs : List Char) : Option Char := cs.find? fun c => !isAllowed c

/-- A text that is not empty and stays within the alphabet. -/
def isSelector (cs : List Char) : Bool := !cs.isEmpty && cs.all isAllowed

theorem firstForbidden?_eq_none_iff {cs : List Char} :
    firstForbidden? cs = none ↔ ∀ c ∈ cs, isAllowed c = true := by
  simp [firstForbidden?]

theorem isSelector_iff {cs : List Char} :
    isSelector cs = true ↔ cs ≠ [] ∧ ∀ c ∈ cs, isAllowed c = true := by
  simp [isSelector]

end Stylesheet.Selector
