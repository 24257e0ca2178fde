import Stylesheet.Position
import Stylesheet.Text.Blank
import Stylesheet.Text.Offset
import Stylesheet.Token

set_option autoImplicit false

/-! # The pending window

While it has not decided what it is reading, the scanner keeps the characters it has read, each
with its source position: the *window*. Characters are added at the end one by one, so the window
stores them latest first; `Window.cells` is the same sequence in reading order and is what
everything else is said about.

Three facts are asked for at nearly every character and are therefore kept up to date as characters
come in: the size in bytes, whether there is anything but blanks, and where the last line break is.
When characters are removed, the last two are found out anew from the text that stays
(`Window.resummarize`). -/

namespace Stylesheet

/-- A pending character and the position it stands at. -/
structure Cell where
  char : Char
  position : Position
deriving DecidableEq, Repr

/-- The text of a sequence of cells. -/
abbrev Cell.text (cells : List Cell) : List Char := cells.map Cell.char

/-- The span from the first to the last character that is not blank. -/
def Cell.span? (cells : List Cell) : Option (Position × Position) :=
  let visible := cells.filter fun cell => !Text.isBlank cell.char
  match visible.head?, visible.getLast? with
  | some first, some last => some (first.position, last.position.nextColumn)
  | _, _ => none

structure Window where
  /-- The pending characters, latest first. -/
  recent : List Cell := []
  /-- The size of the pending text in bytes. -/
  bytes : Nat := 0
  /-- The pending text holds something besides blanks. -/
  hasText : Bool := false
  /-- The byte offset of the last line break: of its line feed, or of the carriage return right
  before that. -/
  lineBreak : Option Nat := none
deriving DecidableEq, Repr

namespace Window

/-! ## Contents -/

/-- The pending characters in reading order. -/
def cells (w : Window) : List Cell := w.recent.reverse

/-- The pending text. -/
def text (w : Window) : List Char := Cell.text w.cells

def isEmpty (w : Window) : Bool := w.recent.isEmpty

/-- Nothing is pending but blanks. -/
def isBlank (w : Window) : Bool := !w.hasText

def last? (w : Window) : Option Char := w.recent.head?.map Cell.char

/-- The cells before the last one, in reading order. -/
def body (w : Window) : List Cell := w.recent.tail.reverse

/-- The position of the first pending character. -/
def start? (w : Window) : Option Position := w.recent.getLast?.map Cell.position

/-- The pending text ends in `suffix`. -/
def endsIn (w : Window) (suffix : List Char) : Bool :=
  Cell.text (w.recent.take suffix.length) == suffix.reverse

/-! ## Changing -/

/-- The window with one more character, which stands at `position`. -/
def push (w : Window) (c : Char) (position : Position) : Window where
  recent := ⟨c, position⟩ :: w.recent
  bytes := w.bytes + c.utf8Size
  hasText := w.hasText || !Text.isBlank c
  lineBreak :=
    if c = '\n' then some (if w.last? = some '\r' then w.bytes - 1 else w.bytes)
    else w.lineBreak

/-- Finds out anew whether there is anything but blanks, and where the last line break is. -/
def resummarize (w : Window) : Window :=
  { w with
    hasText := w.text.any fun c => !Text.isBlank c
    lineBreak := Text.lastBreak? w.text }

/-- The window without what follows byte `offset`; an offset at which the text cannot be cut
changes nothing. -/
def truncate (w : Window) (offset : Nat) : Window :=
  match Text.splitAtByte? Cell.char offset w.cells with
  | some (before, _) => { w with recent := before.reverse, bytes := offset }.resummarize
  | none => w

/-- The window without what precedes byte `offset`; an offset at which the text cannot be cut
changes nothing. -/
def dropBefore (w : Window) (offset : Nat) : Window :=
  match Text.splitAtByte? Cell.char offset w.cells with
  | some (_, after) =>
    { w with recent := after.reverse, bytes := w.bytes - offset }.resummarize
  | none => w

/-! ## Source positions -/

/-- The position of the character that begins at byte `offset`. -/
def positionAt? (w : Window) (offset : Nat) : Option Position :=
  match Text.splitAtByte? Cell.char offset w.cells with
  | some (_, cell :: _) => some cell.position
  | _ => none

/-- The span of the text that is not blank within the first `bytes` bytes. -/
def span? (w : Window) (bytes : Nat) : Option (Position × Position) :=
  Cell.span? (Text.startingBefore Cell.char bytes w.cells)

/-- The anchors of the cells, of which the first begins at byte `offset` and is expected at
`expected`: every cell between bytes `first` and `last` that does not stand right after the one
before it, with its offset counted from `first`. -/
def anchorsFrom (first last : Nat) :
    (offset : Nat) → (expected : Option Position) → List Cell → List Anchor
  | _, _, [] => []
  | offset, expected, cell :: cells =>
    if last ≤ offset then []
    else
      let rest := anchorsFrom first last (offset + cell.char.utf8Size)
        (some (cell.position.advance cell.char)) cells
      if first ≤ offset ∧ expected.isSome ∧ expected ≠ some cell.position then
        ⟨offset - first, cell.position⟩ :: rest
      else rest

/-- Where the source jumps between bytes `first` and `last` of the pending text, as it does over a
comment that was taken out. -/
def anchors (w : Window) (first last : Nat) : List Anchor := anchorsFrom first last 0 none w.cells

/-! ## Lemmas -/

@[simp] theorem cells_push (w : Window) (c : Char) (p : Position) :
    (w.push c p).cells = w.cells ++ [⟨c, p⟩] := by
  simp [cells, push]

@[simp] theorem text_push (w : Window) (c : Char) (p : Position) :
    (w.push c p).text = w.text ++ [c] := by
  simp [text, Cell.text]

@[simp] theorem last?_push (w : Window) (c : Char) (p : Position) :
    (w.push c p).last? = some c := rfl

@[simp] theorem body_push (w : Window) (c : Char) (p : Position) :
    (w.push c p).body = w.cells := rfl

@[simp] theorem cells_mk (recent : List Cell) (bytes : Nat) (hasText : Bool)
    (lineBreak : Option Nat) : cells ⟨recent, bytes, hasText, lineBreak⟩ = recent.reverse := rfl

@[simp] theorem cells_resummarize (w : Window) : w.resummarize.cells = w.cells := rfl

@[simp] theorem text_resummarize (w : Window) : w.resummarize.text = w.text := rfl

end Window

end Stylesheet
