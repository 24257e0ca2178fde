import Stylesheet.Text.Blank
import Stylesheet.Text.Lines
import Stylesheet.Text.WordChar

set_option autoImplicit false

/-! # What a token says, read from its text

Once the scanner knows where a token begins and ends, its payload is a function of the text in
between: the name and the value of an at-rule or a declaration, and the text of a comment. -/

namespace Stylesheet.Payload

/-! ## Comments -/

/-- A line of a comment after the first, without the star that often leads it. -/
def cleanLine (line : List Char) : List Char :=
  match Text.trim line with
  | '*' :: rest => Text.trim rest
  | text => text

/-- The text of a comment from what stands between its delimiters: every line is trimmed, the star
in front of every line but the first is dropped, and so are the blanks around the whole. -/
def cleanComment (raw : List Char) : String :=
  match Text.lines raw with
  | [] => ""
  | first :: rest =>
    String.ofList (Text.trim (Text.joinLines (Text.trim first :: rest.map cleanLine)))

/-! ## At-rules -/

/-- A character of an at-rule's name. -/
def isAtRuleNameChar (c : Char) : Bool := Text.isAlphanumeric c || c == '-' || c == '_'

/-- The text is an `@` with nothing but blanks before it. -/
def isAtSign (cs : List Char) : Bool := Text.trimStart cs == ['@']

/-- The name and the value of an at-rule. The name is the longest run of name characters after the
`@`, and the value is what follows, trimmed, if anything is left of it. -/
def splitAtRule (cs : List Char) : String × Option String :=
  let body :=
    match Text.trim cs with
    | '@' :: rest => rest
    | text => text
  (String.ofList (body.takeWhile isAtRuleNameChar),
    Text.trimmed? (body.dropWhile isAtRuleNameChar))

/-! ## Declarations -/

/-- The name of a declaration that the text begins, when the text is a name and a colon with
blanks allowed before each. -/
def declarationName? (cs : List Char) : Option String :=
  let text := Text.trimStart cs
  if Text.trimStart (text.dropWhile Text.isNameChar) = [':'] then
    some (String.ofList (text.takeWhile Text.isNameChar))
  else none

/-- The value of a declaration: what follows its first colon, trimmed, if anything is left. -/
def declarationValue? (cs : List Char) : Option String :=
  match cs.dropWhile (· != ':') with
  | [] => none
  | _ :: value => Text.trimmed? value

end Stylesheet.Payload
