import Stylesheet.Proofs.Breaks.Window
import Stylesheet.Proofs.Token

set_option autoImplicit false

/-! # Tokens and findings in both spellings

Line breaks occur in the texts that tokens and findings carry. `Token.crlf` and `Finding.crlf` are
what a token and a finding become when the source is written with line breaks of two characters:
placements stay, and so do names and the texts of comments. `Token.lf` and `Finding.lf` replace
every pair in a text by a line feed, and give back what they came from. -/

namespace Stylesheet

/-! ## Findings -/

/-- The issue with every text in it replaced. -/
def Issue.mapText (f : String → String) : Issue → Issue
  | unclosed type => unclosed type
  | leftover text => leftover (f text)
  | strayContent text => strayContent (f text)
  | strayBrace => strayBrace
  | forbiddenCharacter char selector => forbiddenCharacter char (f selector)
  | unclaimedSelector selector => unclaimedSelector (f selector)
  | doubledCharacter pair selector => doubledCharacter (f pair) (f selector)
  | unbalancedParentheses selector => unbalancedParentheses (f selector)
  | indentationCharacter char => indentationCharacter char
  | emptyAtRuleName => emptyAtRuleName
  | unknownAtRule name => unknownAtRule (f name)
  | importWithoutUrl => importWithoutUrl
  | importUrl value => importUrl (f value)
  | importConditions conditions => importConditions (f conditions)
  | charsetWithoutValue => charsetWithoutValue
  | charsetValue value => charsetValue (f value)
  | layerWithoutName => layerWithoutName
  | layerEndingInComma value => layerEndingInComma (f value)
  | layerWithAdjacentCommas value => layerWithAdjacentCommas (f value)
  | layerNames value => layerNames (f value)
  | emptyPropertyName => emptyPropertyName
  | customPropertyName name => customPropertyName (f name)
  | propertyName name => propertyName (f name)
  | propertyOutsideBlock name => propertyOutsideBlock (f name)
  | unknownDescriptor name atRule => unknownDescriptor (f name) (f atRule)
  | unknownProperty name => unknownProperty (f name)
  | emptyPropertyValue name => emptyPropertyValue (f name)
  | remark key text => remark key (f text)

theorem Issue.mapText_mapText {f g : String → String} (h : ∀ text, f (g text) = text)
    (issue : Issue) : (issue.mapText g).mapText f = issue := by
  cases issue <;> simp [mapText, h]

@[simp] theorem Issue.key_mapText (f : String → String) (issue : Issue) :
    (issue.mapText f).key = issue.key := by
  cases issue <;> rfl

namespace Finding

/-- The finding about a source with line breaks of two characters. -/
def crlf (f : Finding) : Finding := { f with issue := f.issue.mapText Text.withCrlf }

/-- The finding with every pair in its texts replaced by a line feed. -/
def lf (f : Finding) : Finding := { f with issue := f.issue.mapText Text.withLf }

@[simp] theorem lf_crlf (f : Finding) : f.crlf.lf = f := by
  simp [lf, crlf, Issue.mapText_mapText Text.withLf_withCrlf]

theorem crlf_spanning (issue : Issue) (start stop : Position) :
    (spanning issue start stop).crlf = spanning (issue.mapText Text.withCrlf) start stop := rfl

end Finding

/-! ## Tokens -/

namespace Text

/-- The byte of the text with its pairs replaced that corresponds to byte `n` of the text. -/
def lfOffset : List Char → Nat → Nat
  | [], n => n
  | '\r' :: '\n' :: cs, n => if n < 2 then n else 1 + lfOffset cs (n - 2)
  | c :: cs, n => if n < c.utf8Size then n else c.utf8Size + lfOffset cs (n - c.utf8Size)

theorem lfOffset_crlfOffset (cs : List Char) (n : Nat) :
    lfOffset (crlf cs) (crlfOffset cs n) = n := by
  induction cs generalizing n with
  | nil => rfl
  | cons c cs ih =>
    rw [crlfOffset]
    by_cases hc : c = '\n'
    · have hone : Char.utf8Size '\n' = 1 := rfl
      have htwo : byteSize (crlfChar '\n') = 2 := rfl
      rw [hc, crlf_lineFeed, lfOffset, hone, htwo]
      split
      · rw [if_pos (by omega)]
      · rw [if_neg (by omega), Nat.add_sub_cancel_left, ih]
        omega
    · have hsize : byteSize (crlfChar c) = c.utf8Size := by simp [crlfChar, hc]
      rw [crlf_cons_of_ne hc, lfOffset, hsize]
      · split
        · rfl
        · rw [if_neg (by omega), Nat.add_sub_cancel_left, ih]
          omega
      · exact fun ds _ hds => crlf_ne_lineFeed_cons cs ds hds

end Text

namespace Leaf

/-- What a token says in a source with line breaks of two characters. -/
def crlf : Leaf → Leaf
  | selector text anchors => selector (Text.withCrlf text) (anchors.map (Anchor.crlf text.toList))
  | property name value => property name (value.map Text.withCrlf)
  | atRule name value isBlock => atRule name (value.map Text.withCrlf) isBlock
  | comment text => comment text
  | whitespace text => whitespace (Text.withCrlf text)

/-- What a token says with every pair replaced by a line feed; the anchors are counted anew. -/
def lf : Leaf → Leaf
  | selector text anchors =>
    selector (Text.withLf text)
      (anchors.map fun a => ⟨Text.lfOffset text.toList a.offset, a.position⟩)
  | property name value => property (Text.withLf name) (value.map Text.withLf)
  | atRule name value isBlock => atRule (Text.withLf name) (value.map Text.withLf) isBlock
  | comment text => comment (Text.withLf text)
  | whitespace text => whitespace (Text.withLf text)

@[simp] theorem type_crlf (content : Leaf) : content.crlf.type = content.type := by
  cases content <;> rfl

end Leaf

mutual

/-- The token with what it and everything in it says replaced. -/
def Token.mapLeaf (f : Leaf → Leaf) : Token → Token
  | .leaf place content => .leaf place (f content)
  | .block place children => .block place (Token.mapLeafAll f children)

/-- The same for a sequence of tokens. -/
def Token.mapLeafAll (f : Leaf → Leaf) : List Token → List Token
  | [] => []
  | t :: ts => t.mapLeaf f :: Token.mapLeafAll f ts

end

namespace Token

theorem mapLeafAll_eq_map (f : Leaf → Leaf) (ts : List Token) :
    mapLeafAll f ts = ts.map (mapLeaf f) := by
  induction ts with
  | nil => rfl
  | cons t ts ih => rw [mapLeafAll, ih, List.map_cons]

/-- The token in a source with line breaks of two characters. -/
def crlf (t : Token) : Token := t.mapLeaf Leaf.crlf

/-- The token with every pair in its texts replaced by a line feed. -/
def lf (t : Token) : Token := t.mapLeaf Leaf.lf

variable (t : Token)

@[simp] theorem place_crlf : t.crlf.place = t.place := by
  cases t <;> rfl

@[simp] theorem id_crlf : t.crlf.id = t.id := by
  rw [id, place_crlf, id]

@[simp] theorem start_crlf : t.crlf.start = t.start := by
  rw [start, place_crlf, start]

@[simp] theorem type_crlf : t.crlf.type = t.type := by
  cases t with
  | leaf place content => exact content.type_crlf
  | block place children => rfl

@[simp] theorem crlf_childOf (parent : TokenId) (previous : Option TokenId) :
    (t.childOf parent previous).crlf = t.crlf.childOf parent previous := by
  cases t <;> rfl

@[simp] theorem crlf_linkedAfter (previous : Option TokenId) :
    (t.linkedAfter previous).crlf = t.crlf.linkedAfter previous := by
  cases t <;> rfl

theorem crlf_block (place : Placement) (children : List Token) :
    (block place children).crlf = block place (children.map crlf) := by
  rw [crlf, mapLeaf, mapLeafAll_eq_map]
  rfl

theorem crlf_ofChildren (id : TokenId) (children : List Token) (start stop : Position) :
    (ofChildren id children start stop).crlf = ofChildren id (children.map crlf) start stop :=
  crlf_block ..

end Token

namespace Item

/-- The item of a source with line breaks of two characters. -/
def crlf : Item → Item
  | token t => token t.crlf
  | finding f => finding f.crlf

/-- The item with every pair in its texts replaced by a line feed. -/
def lf : Item → Item
  | token t => token t.lf
  | finding f => finding f.lf

end Item

end Stylesheet
