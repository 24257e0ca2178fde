import Stylesheet.Position
import Stylesheet.Text.Offset

set_option autoImplicit false

/-! # Tokens

A stylesheet is a sequence of tokens: selectors, declarations, at-rules, comments, indentation,
and blocks, which hold a sequence of tokens in turn. Every token carries a `Placement`: its
number within the run, the numbers of the block that owns it and of the token right before it in
the same sequence, and its span in the source.

Comments are taken out of a selector's text, so the text alone does not tell where its characters
stand. A selector therefore keeps *anchors*, the offsets at which the source jumps over something,
and `Token.locate` turns an offset into a source position with their help. -/

namespace Stylesheet

/-- The number of a token within one run, counted from zero in order of opening. -/
abbrev TokenId := Nat

inductive TokenType where
  | selector
  | property
  | atRule
  | comment
  | whitespace
  | block
deriving DecidableEq, Repr

namespace TokenType

def all : List TokenType := [selector, property, atRule, comment, whitespace, block]

def name : TokenType → String
  | selector => "selector"
  | property => "property"
  | atRule => "at-rule"
  | comment => "comment"
  | whitespace => "whitespace"
  | block => "block"

/-- The character that ends a token of this type may also begin what follows. -/
def isBoundary : TokenType → Bool
  | block => false
  | _ => true

theorem mem_all (t : TokenType) : t ∈ all := by
  cases t <;> decide

end TokenType

/-- A byte offset into a selector's text, with the source position of the character there. -/
structure Anchor where
  offset : Nat
  position : Position
deriving DecidableEq, Repr

/-- What a token other than a block says. -/
inductive Leaf where
  /-- The text in front of a block, comments taken out. -/
  | selector (text : String) (anchors : List Anchor)
  | property (name : String) (value : Option String)
  /-- An at-rule; `isBlock` when a block follows it instead of a semicolon. -/
  | atRule (name : String) (value : Option String) (isBlock : Bool)
  /-- A comment's text without its delimiters. -/
  | comment (text : String)
  /-- A line break and the indentation after it. -/
  | whitespace (text : String)
deriving DecidableEq, Repr

def Leaf.type : Leaf → TokenType
  | selector .. => .selector
  | property .. => .property
  | atRule .. => .atRule
  | comment _ => .comment
  | whitespace _ => .whitespace

/-- Where a token stands among the others and in the source; the span is `[start, stop)`. -/
structure Placement where
  id : TokenId
  parent : Option TokenId := none
  previous : Option TokenId := none
  start : Position
  stop : Position
deriving DecidableEq, Repr

/-- The placement of a token that no sequence owns yet; the span is at least one column wide. -/
def Placement.detached (id : TokenId) (start stop : Position) : Placement :=
  { id, start, stop := start.widen stop }

inductive Token where
  | leaf (place : Placement) (content : Leaf)
  | block (place : Placement) (children : List Token)
deriving Repr

namespace Token

/-! ## Parts -/

def place : Token → Placement
  | leaf p _ => p
  | block p _ => p

def type : Token → TokenType
  | leaf _ content => content.type
  | block .. => .block

/-- The tokens of a block; no other token has any. -/
def children : Token → List Token
  | leaf .. => []
  | block _ children => children

def id (t : Token) : TokenId := t.place.id

def parent (t : Token) : Option TokenId := t.place.parent

def previous (t : Token) : Option TokenId := t.place.previous

def start (t : Token) : Position := t.place.start

def stop (t : Token) : Position := t.place.stop

/-! ## Building -/

/-- A token that no sequence owns yet. -/
def ofLeaf (id : TokenId) (content : Leaf) (start stop : Position) : Token :=
  leaf (.detached id start stop) content

/-- A block that no sequence owns yet. -/
def ofChildren (id : TokenId) (children : List Token) (start stop : Position) : Token :=
  block (.detached id start stop) children

def withPlace (p : Placement) : Token → Token
  | leaf _ content => leaf p content
  | block _ children => block p children

/-- The token as a child of `parent`, coming after `previous`. -/
def childOf (t : Token) (parent : TokenId) (previous : Option TokenId) : Token :=
  t.withPlace { t.place with parent := some parent, previous }

/-- The token as a member of the outermost sequence, coming after `previous`. -/
def linkedAfter (t : Token) (previous : Option TokenId) : Token :=
  t.withPlace { t.place with previous }

@[simp] theorem place_withPlace (p : Placement) (t : Token) : (t.withPlace p).place = p := by
  cases t <;> rfl

@[simp] theorem type_withPlace (p : Placement) (t : Token) : (t.withPlace p).type = t.type := by
  cases t <;> rfl

@[simp] theorem children_withPlace (p : Placement) (t : Token) :
    (t.withPlace p).children = t.children := by
  cases t <;> rfl

/-! ## Looking things up -/

/-- The first of the tokens with number `id`. -/
def find? (tokens : List Token) (id : TokenId) : Option Token := tokens.find? (·.id == id)

/-- The child of a block with number `id`. -/
def child? (t : Token) (id : TokenId) : Option Token := find? t.children id

/-- The source position of the character at byte `offset` of a text that begins at `start`: the
last anchor not after the offset, moved over the text in between. An offset that is not between
two characters of the text gives the anchor itself. -/
def locateIn (start : Position) (anchors : List Anchor) (text : String) (offset : Nat) :
    Position :=
  let base := (anchors.reverse.find? (·.offset ≤ offset)).getD ⟨0, start⟩
  base.position.advanceAll ((Text.slice? base.offset offset text.toList).getD [])

/-- The source position of byte `offset` of a selector's text; of any other token, the position
reached without anchors. -/
def locate (t : Token) (text : String) (offset : Nat) : Position :=
  match t with
  | leaf p (.selector _ anchors) => locateIn p.start anchors text offset
  | _ => locateIn t.start [] text offset

end Token

/-! ## Equality of tokens -/

mutual

/-- Equality of tokens is decided placement by placement and payload by payload. -/
def Token.decEq : (a b : Token) → Decidable (a = b)
  | .leaf p c, .leaf q d => decidable_of_iff (p = q ∧ c = d) (by simp)
  | .block p cs, .block q ds =>
    match Token.decEqList cs ds with
    | isTrue h => decidable_of_iff (p = q) (by simp [h])
    | isFalse h => isFalse (by simp [h])
  | .leaf .., .block .. => isFalse (by simp)
  | .block .., .leaf .. => isFalse (by simp)

/-- Equality of sequences of tokens. -/
def Token.decEqList : (as bs : List Token) → Decidable (as = bs)
  | [], [] => isTrue rfl
  | a :: as, b :: bs =>
    match Token.decEq a b with
    | isTrue h =>
      match Token.decEqList as bs with
      | isTrue hs => isTrue (by rw [h, hs])
      | isFalse hs => isFalse (by simp [hs])
    | isFalse h => isFalse (by simp [h])
  | [], _ :: _ => isFalse (by simp)
  | _ :: _, [] => isFalse (by simp)

end

instance : DecidableEq Token := Token.decEq

end Stylesheet
