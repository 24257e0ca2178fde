import Stylesheet.Finding
import Stylesheet.Scan.Window

set_option autoImplicit false

/-! # The scanner's state

Between two characters the scanner knows the window of text it has not assigned yet, where it is
in the source, the token and the comment it has opened, the blocks it is in, and which tokens it
finished last. Everything that happens while scanning is a change of this one value. -/

namespace Stylesheet

/-- The kinds of token that stay open over several characters. A selector is recognised all at
once by the brace after it, and blocks and comments are kept apart from the open token. -/
inductive OpenKind where
  /-- A declaration whose name has been read. -/
  | property (name : String)
  | atRule
  | whitespace
deriving DecidableEq, Repr

def OpenKind.type : OpenKind → TokenType
  | property _ => .property
  | atRule => .atRule
  | whitespace => .whitespace

/-- A token whose end has not been seen. -/
structure OpenToken where
  id : TokenId
  kind : OpenKind
  start : Position
deriving DecidableEq, Repr

/-- The token, now that its content and its end are known. -/
def OpenToken.close (t : OpenToken) (content : Leaf) (stop : Position) : Token :=
  .ofLeaf t.id content t.start stop

/-- A comment whose end has not been seen. -/
structure OpenComment where
  /-- The byte offset of the comment in the pending text. -/
  offset : Nat
  id : TokenId
  start : Position
  /-- The comment interrupts other text, and so becomes no token. -/
  embedded : Bool
deriving DecidableEq, Repr

def OpenComment.close (c : OpenComment) (text : String) (stop : Position) : Token :=
  .ofLeaf c.id (.comment text) c.start stop

/-- A block whose closing brace has not been seen. -/
structure OpenBlock where
  id : TokenId
  /-- The position of the opening brace. -/
  start : Position
  /-- The start of the selector or at-rule in front of the brace, or of the brace itself. -/
  headerStart : Position
  /-- The children so far, latest first. -/
  recent : List Token := []
deriving DecidableEq, Repr

namespace OpenBlock

/-- The children so far, in source order. -/
def children (b : OpenBlock) : List Token := b.recent.reverse

/-- The block with one more child, which is linked to the block and to the child before it. -/
def add (b : OpenBlock) (t : Token) : OpenBlock :=
  { b with recent := t.childOf b.id (b.recent.head?.map Token.id) :: b.recent }

def close (b : OpenBlock) (stop : Position) : Token := .ofChildren b.id b.children b.start stop

@[simp] theorem children_add (b : OpenBlock) (t : Token) :
    (b.add t).children = b.children ++ [t.childOf b.id (b.recent.head?.map Token.id)] := by
  simp [children, add]

end OpenBlock

/-- What is remembered of the token finished last. -/
structure Completed where
  id : TokenId
  type : TokenType
  start : Position
  /-- The position of the character that finished it. -/
  position : Position
deriving DecidableEq, Repr

namespace Scan

structure State where
  window : Window := {}
  /-- The position of the character being scanned. -/
  position : Position := .start
  /-- The position of the character after it. -/
  next : Position := .start
  current : Option OpenToken := none
  comment : Option OpenComment := none
  /-- The open blocks, innermost first. -/
  blocks : List OpenBlock := []
  completed : Option Completed := none
  /-- The last token of the outermost sequence. -/
  lastTopLevel : Option TokenId := none
  nextId : TokenId := 0
deriving DecidableEq, Repr

namespace State

/-! ## Characters and positions -/

/-- Takes in the next character of the source. -/
def push (s : State) (c : Char) : State :=
  { s with
    position := s.next
    next := s.next.nextColumn
    window := s.window.push c s.next }

/-- Takes in the character being scanned once more, after the window was emptied. -/
def pushAgain (s : State) (c : Char) : State :=
  { s with window := s.window.push c s.position }

/-- Passes over one column without a character. -/
def advanceColumn (s : State) : State := { s with next := s.next.nextColumn }

/-- The next character begins a line. -/
def advanceLine (s : State) : State := { s with next := s.position.nextLine }

def clearWindow (s : State) : State := { s with window := {} }

/-! ## Open things -/

def currentType (s : State) : Option TokenType := s.current.map (·.kind.type)

def depth (s : State) : Nat := s.blocks.length

/-- A fresh number. -/
def takeId (s : State) : TokenId × State := (s.nextId, { s with nextId := s.nextId + 1 })

@[simp] theorem takeId_eq (s : State) :
    s.takeId = (s.nextId, { s with nextId := s.nextId + 1 }) := rfl

/-- Opens a token with a fresh number. -/
def openToken (s : State) (kind : OpenKind) (start : Position) : State :=
  let (id, s) := s.takeId
  { s with current := some ⟨id, kind, start⟩ }

/-- Opens a comment with a fresh number. -/
def openComment (s : State) (offset : Nat) (start : Position) (embedded : Bool) : State :=
  let (id, s) := s.takeId
  { s with comment := some ⟨offset, id, start, embedded⟩ }

/-- Opens a block with a fresh number. -/
def openBlock (s : State) (start headerStart : Position) : State :=
  let (id, s) := s.takeId
  { s with blocks := ⟨id, start, headerStart, []⟩ :: s.blocks }

@[simp] theorem blocks_openBlock (s : State) (start headerStart : Position) :
    (s.openBlock start headerStart).blocks = ⟨s.nextId, start, headerStart, []⟩ :: s.blocks := rfl

/-! ## Finished tokens -/

/-- Remembers `t` as the token finished last. -/
def recordCompleted (s : State) (t : Token) : State :=
  { s with completed := some ⟨t.id, t.type, t.start, s.position⟩ }

/-- Links `t` to the last token of the outermost sequence and makes it the last. -/
def acceptTopLevel (s : State) (t : Token) : Token × State :=
  (t.linkedAfter s.lastTopLevel, { s with lastTopLevel := some t.id })

/-- Puts a finished token where it belongs: into the innermost open block, or out. -/
def accept (s : State) (t : Token) : List Item × State :=
  match s.blocks with
  | b :: blocks => ([], { s with blocks := b.add t :: blocks })
  | [] =>
    let (linked, s) := s.acceptTopLevel t
    ([.token linked], s)

end State

end Scan

end Stylesheet
