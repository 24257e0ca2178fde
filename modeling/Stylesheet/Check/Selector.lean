import Stylesheet.Finding
import Stylesheet.Selector
import Stylesheet.Text.Quoted

set_option autoImplicit false

/-! # Checking selectors

A selector with a character outside the selector alphabet is reported once, for the first such
character. Otherwise, strings apart, every structural character written twice in a row is reported,
and so are parentheses that do not come out even. -/

namespace Stylesheet.Check

/-- The structural characters that may not be doubled. -/
def structural : List Char := ['#', '.', '>', '+', '~', ',', '[']

/-- The doubled structural characters of a text that begins at byte `offset`, each with the offset
of its first character. The search goes on after the second. -/
def doubledFrom (offset : Nat) : List Char → List (Nat × Char)
  | c :: d :: rest =>
    if c = d ∧ structural.contains c then
      (offset, c) :: doubledFrom (offset + c.utf8Size + d.utf8Size) rest
    else doubledFrom (offset + c.utf8Size) (d :: rest)
  | _ => []

/-- The byte offset of the first character that may not stand in a selector, and the character. -/
def forbiddenAt? (text : List Char) : Option (Nat × Char) :=
  (Selector.firstForbidden? text).map fun c =>
    (Text.byteSize (text.takeWhile Selector.isAllowed), c)

/-- The finding about the characters `cs` that begin at byte `offset` of a selector. -/
def selectorFinding (place : Placement) (text : String) (anchors : List Anchor) (offset : Nat)
    (cs : List Char) (issue : Issue) : Finding :=
  let start := Token.locateIn place.start anchors text offset
  .spanning issue start (start.advanceAll cs)

/-- The findings about a selector that stands at `place`. -/
def selector (place : Placement) (text : String) (anchors : List Anchor) : List Finding :=
  match forbiddenAt? text.toList with
  | some (offset, c) =>
    [selectorFinding place text anchors offset [c] (.forbiddenCharacter c text)]
  | none =>
    let unquoted := Text.maskQuoted text.toList
    let doubled := (doubledFrom 0 unquoted).map fun (offset, c) =>
      selectorFinding place text anchors offset [c, c]
        (.doubledCharacter (String.ofList [c, c]) text)
    if unquoted.count '(' = unquoted.count ')' then doubled
    else doubled ++ [.spanning (.unbalancedParentheses text) place.start place.stop]

end Stylesheet.Check
