import Stylesheet.Scan.Payload
import Stylesheet.Scan.State
import Stylesheet.Selector
import Stylesheet.Text.Quoted

set_option autoImplicit false

/-! # Scan rules

Seven rules look at every character, in a fixed order, right after it was put into the window.
A rule passes, claims the character without finishing anything, finishes a token, reports a
finding, or does the last two at once. Each rule is a function of the state; what it says depends
on the last character, on what is open, and on whether the text before the character ends inside a
string.

A character that ends one token can begin the next, as the brace after a selector does.
`Rule.handsOff` says which rule may take such a character over. -/

namespace Stylesheet.Scan

/-- What a rule made of a character. -/
inductive Outcome where
  /-- The rule does not apply. -/
  | skip
  /-- The rule claims the character and finishes nothing. -/
  | consumed
  /-- A token is finished. -/
  | token (t : Token)
  /-- Something is wrong; scanning goes on with the next character. -/
  | finding (f : Finding)
  /-- A token is finished after text that should not be there. -/
  | recovered (t : Token) (f : Finding)
deriving DecidableEq, Repr

namespace Outcome

/-- The token that was finished. -/
def token? : Outcome → Option Token
  | token t | recovered t _ => some t
  | _ => none

/-- What was found to be wrong. -/
def finding? : Outcome → Option Finding
  | finding f | recovered _ f => some f
  | _ => none

end Outcome

inductive Rule where
  | lineEnding
  | comment
  | atRule
  | selector
  | property
  | block
  | whitespace
deriving DecidableEq, Repr

namespace Rule

/-- The rules in the order in which they are tried. -/
def order : List Rule := [lineEnding, comment, atRule, selector, property, block, whitespace]

def name : Rule → String
  | lineEnding => "line-ending"
  | comment => "comment"
  | atRule => "at-rule"
  | selector => "selector"
  | property => "property"
  | block => "block"
  | whitespace => "whitespace"

/-- The rule may take over the character `c` that finished a token of the given type. -/
def handsOff (type : TokenType) (rule : Rule) (c : Char) : Bool :=
  match type, rule with
  | .selector, block | .atRule, block => c == '{'
  | .property, block => c == '}'
  | .whitespace, lineEnding | .whitespace, whitespace => false
  | .whitespace, _ => true
  | _, _ => false

end Rule

namespace State

/-- The text before the last character of the window. -/
def bodyText (s : State) : List Char := Cell.text s.window.body

/-- The text before the last character of the window, trimmed. -/
def trimmedBody (s : State) : String := String.ofList (Text.trim s.bodyText)

/-- The end of the text before the last character, or the position of that character when there
is no such text. -/
def bodyStop (s : State) : Position :=
  match Cell.span? s.window.body with
  | some (_, stop) => stop
  | none => s.position

/-! ## Line endings -/

/-- A line feed moves the next character to a new line; the other rules see it as well. -/
def scanLineEnding (s : State) (c : Char) : Outcome × State :=
  (.skip, if c = '\n' then s.advanceLine else s)

/-! ## Comments -/

/-- What stands between the delimiters of a comment that begins at byte `offset` and ends at the
end of the window. -/
def commentText (s : State) (offset : Nat) : List Char :=
  (Text.slice? (offset + 2) (s.window.bytes - 2) s.window.text).getD []

/-- Inside a comment: its two last characters end it, unless they overlap the two first. A comment
among other text is taken out of the window. -/
def continueComment (s : State) (comment : OpenComment) : Outcome × State :=
  if s.window.bytes < comment.offset + 4 ∨ s.window.endsIn ['*', '/'] = false then (.consumed, s)
  else if comment.embedded then
    (.consumed, { s with comment := none, window := s.window.truncate comment.offset })
  else
    (.token (comment.close (Payload.cleanComment (s.commentText comment.offset)) s.next),
      { s with comment := none })

/-- Outside a comment: a slash and a star open one, except in a string or an address. -/
def beginComment (s : State) : Outcome × State :=
  match s.window.recent with
  | star :: slash :: before =>
    if star.char = '*' ∧ slash.char = '/' then
      let text := Cell.text before.reverse
      if Text.insideString text || Text.insideUrl text then (.skip, s)
      else
        (.consumed, s.openComment (s.window.bytes - 2) slash.position
          (s.current.isSome || !Text.allBlank text))
    else (.skip, s)
  | _ => (.skip, s)

def scanComment (s : State) : Outcome × State :=
  match s.comment with
  | some comment => s.continueComment comment
  | none => s.beginComment

/-! ## At-rules -/

/-- An at-rule ends at a semicolon or an opening brace that is in no string and in no
parentheses. -/
def closeAtRule (s : State) (opened : OpenToken) (c : Char) : Outcome × State :=
  if c ≠ ';' ∧ c ≠ '{' then (.skip, s)
  else if Text.insideString s.bodyText ∨ 0 < Text.openParens s.bodyText then (.skip, s)
  else
    let (name, value) := Payload.splitAtRule s.bodyText
    let stop := if c = '{' then s.bodyStop else s.next
    (.token (opened.close (.atRule name value (c = '{')) stop), { s with current := none })

/-- An `@` after nothing but blanks opens an at-rule. -/
def scanAtRule (s : State) (c : Char) : Outcome × State :=
  match s.current with
  | some opened => if opened.kind = .atRule then s.closeAtRule opened c else (.skip, s)
  | none =>
    if c = '@' ∧ Payload.isAtSign s.window.text then
      (.consumed, s.openToken .atRule s.position)
    else (.skip, s)

/-! ## Selectors -/

/-- The text before an opening brace is a selector when it stays within the selector alphabet. -/
def takeSelector (s : State) : Outcome × State :=
  let body := s.bodyText
  let text := Text.trim body
  if Text.insideString body || !Selector.isSelector text then (.skip, s)
  else
    match Cell.span? s.window.body with
    | none => (.skip, s)
    | some (start, stop) =>
      let first := Text.byteSize body - Text.byteSize (Text.trimStart body)
      let anchors := s.window.anchors first (first + Text.byteSize text)
      let (id, s) := s.takeId
      (.token (.ofLeaf id (.selector (String.ofList text) anchors) start stop),
        { s with current := none })

/-- A selector is read all at once at the brace after it. Inside a block, what looked like the
name of a declaration turns out to be the part of a selector before a pseudo-class. -/
def scanSelector (s : State) (c : Char) : Outcome × State :=
  if c ≠ '{' then (.skip, s)
  else
    match s.currentType with
    | none | some .property => s.takeSelector
    | some _ => (.skip, s)

/-! ## Declarations -/

/-- A name and a colon open a declaration. -/
def beginProperty (s : State) : Outcome × State :=
  match Payload.declarationName? s.window.text with
  | none => (.skip, s)
  | some name =>
    let start :=
      match Cell.span? s.window.cells with
      | some (start, _) => start
      | none => s.position
    (.consumed, s.openToken (.property name) start)

/-- A declaration ends at a semicolon outside parentheses, or at the closing brace of its block;
neither counts in a string. -/
def closeProperty (s : State) (opened : OpenToken) (name : String) (c : Char) :
    Outcome × State :=
  if c ≠ ';' ∧ c ≠ '}' then (.skip, s)
  else if Text.insideString s.bodyText ∨ c = ';' ∧ 0 < Text.openParens s.bodyText then (.skip, s)
  else
    let stop := if c = ';' then s.next else s.bodyStop
    (.token (opened.close (.property name (Payload.declarationValue? s.bodyText)) stop),
      { s with current := none })

/-- Text in a block that reaches a semicolon without having become a declaration is dropped. -/
def rejectContent (s : State) : Outcome × State :=
  if Text.insideString s.bodyText then (.skip, s)
  else
    match Cell.span? s.window.body with
    | none => (.consumed, s.clearWindow)
    | some (start, stop) =>
      (.finding (.spanning (.strayContent s.trimmedBody) start stop), s.clearWindow)

def scanProperty (s : State) (c : Char) : Outcome × State :=
  if s.blocks.isEmpty then (.skip, s)
  else
    match s.current with
    | some opened =>
      match opened.kind with
      | .property name => s.closeProperty opened name c
      | _ => (.skip, s)
    | none =>
      if c = ':' then s.beginProperty
      else if c = ';' then s.rejectContent
      else (.skip, s)

/-! ## Blocks -/

/-- The start of the header of a block opened here: of the selector or at-rule that this very
brace finished, or else of the unclaimed text before the brace, or else the brace itself. -/
def headerStart (s : State) : Position :=
  let unclaimed :=
    match Cell.span? s.window.body with
    | some (start, _) => start
    | none => s.position
  match s.completed with
  | some completed =>
    if completed.position = s.position ∧
        (completed.type = .selector ∨ completed.type = .atRule) then completed.start
    else unclaimed
  | none => unclaimed

/-- What is wrong with a header that no selector or at-rule claimed. -/
def headerIssue (text : List Char) : Issue :=
  match Selector.firstForbidden? text with
  | some c => .forbiddenCharacter c (String.ofList text)
  | none => .unclaimedSelector (String.ofList text)

/-- An opening brace opens a block whatever stands before it; text that nothing claimed is
reported. -/
def beginBlock (s : State) : Outcome × State :=
  if Text.insideString s.bodyText then (.skip, s)
  else
    let opened := (s.openBlock s.position s.headerStart).clearWindow
    match Cell.span? s.window.body with
    | none => (.consumed, opened)
    | some (start, stop) =>
      (.finding (.spanning (headerIssue (Text.trim s.bodyText)) start stop), opened)

/-- A closing brace closes the innermost block and reports text before it that is no declaration.
Without an open block the brace itself is reported. -/
def closeBlock (s : State) : Outcome × State :=
  if Text.insideString s.bodyText then (.skip, s)
  else
    let stray := (Cell.span? s.window.body).map fun (start, stop) =>
      Finding.spanning (.strayContent s.trimmedBody) start stop
    match s.blocks with
    | [] =>
      (.finding (stray.getD (.spanning .strayBrace s.position s.position.nextColumn)),
        s.clearWindow)
    | b :: blocks =>
      let closed := { s with blocks }
      match stray with
      | some f => (.recovered (b.close s.next) f, closed)
      | none => (.token (b.close s.next), closed)

/-- What looked like a declaration before an opening brace was a malformed header, unless the
brace is in a string or in parentheses. -/
def abandonProperty (s : State) : Outcome × State :=
  if Text.insideString s.bodyText ∨ 0 < Text.openParens s.bodyText then (.skip, s)
  else { s with current := none }.beginBlock

def scanBlock (s : State) (c : Char) : Outcome × State :=
  match s.currentType with
  | none =>
    if c = '{' then s.beginBlock
    else if c = '}' then s.closeBlock
    else (.skip, s)
  | some .property => if c = '{' then s.abandonProperty else (.skip, s)
  | some _ => (.skip, s)

/-! ## Indentation -/

/-- Indentation begins at the last line break of a window that holds only blanks, or at the very
beginning of the source; the blanks before the line break are dropped. -/
def beginWhitespace (s : State) (c : Char) : Outcome × State :=
  if !Text.isBlank c || !s.window.isBlank then (.skip, s)
  else
    let opened (window : Window) : Outcome × State :=
      (.consumed, { s with window }.openToken .whitespace (window.start?.getD s.position))
    match s.window.lineBreak with
    | some offset => opened (s.window.dropBefore offset)
    | none => if s.window.start? = some .start then opened s.window else (.skip, s)

/-- Indentation goes on to the first character that is not blank. -/
def scanWhitespace (s : State) (c : Char) : Outcome × State :=
  match s.current with
  | some opened =>
    if opened.kind = .whitespace then
      if Text.isBlank c then (.consumed, s)
      else
        (.token (opened.close (.whitespace (String.ofList s.bodyText)) s.position),
          { s with current := none })
    else (.skip, s)
  | none => s.beginWhitespace c

end State

/-- Applies a rule to the last character of the window. Inside a comment only the rules for line
endings and comments apply. -/
def Rule.scan (rule : Rule) (s : State) : Outcome × State :=
  match s.window.last? with
  | none => (.skip, s)
  | some c =>
    if s.comment.isSome ∧ rule ≠ .lineEnding ∧ rule ≠ .comment then (.skip, s)
    else
      match rule with
      | .lineEnding => s.scanLineEnding c
      | .comment => s.scanComment
      | .atRule => s.scanAtRule c
      | .selector => s.scanSelector c
      | .property => s.scanProperty c
      | .block => s.scanBlock c
      | .whitespace => s.scanWhitespace c

end Stylesheet.Scan
