import Mathlib.Data.List.Infix
import Stylesheet.Proofs.Token
import Stylesheet.Selector
import Stylesheet.Text.Quoted

set_option autoImplicit false

/-! # Printed stylesheets

A `Node` is a piece of a stylesheet as a writer thinks of it: a rule with its declarations, an
at-rule with a block of further pieces, or an at-rule that is a statement. `Node.print` lays it out
with one line for every header, declaration and closing brace and two more spaces in every block.
`Node.shapes` are the tokens this text should have, without their placement: those of the pieces,
and one for every line end. -/

namespace Stylesheet

/-! ## Shapes -/

/-- What tokens say, without where they stand. -/
inductive Shape where
  | leaf (content : Leaf)
  | block (children : List Shape)

mutual

/-- The shape of a token. -/
def Token.shape : Token → Shape
  | .leaf _ content => .leaf content
  | .block _ children => .block (Token.shapeAll children)

/-- The shapes of a sequence of tokens. -/
def Token.shapeAll : List Token → List Shape
  | [] => []
  | t :: ts => t.shape :: Token.shapeAll ts

end

/-! ## Pieces of a stylesheet -/

inductive Node where
  | rule (selector : String) (declarations : List (String × String))
  /-- An at-rule with a block; the text between its name and the block may be missing. -/
  | atBlock (name : String) (value : Option String) (nodes : List Node)
  | atStatement (name : String) (value : String)

/-- The text has no blanks around it. -/
def Text.IsTrimmed (text : String) : Prop := Text.trim text.toList = text.toList

instance Text.instDecidableIsTrimmed (text : String) : Decidable (IsTrimmed text) :=
  inferInstanceAs (Decidable (Text.trim text.toList = text.toList))

/-- The text of a selector without strings. -/
structure Text.IsPlainSelector (text : String) : Prop where
  nonempty : text ≠ ""
  trimmed : IsTrimmed text
  allowed : ∀ c ∈ text.toList, Selector.isAllowed c = true ∧ isQuote c = false

/-- The name of a declaration or an at-rule. -/
structure Text.IsName (text : String) : Prop where
  nonempty : text ≠ ""
  chars : ∀ c ∈ text.toList, isNameChar c = true

/-- The value of a declaration or an at-rule, without strings and comments, whose parentheses are
all closed. -/
structure Text.IsPlainValue (text : String) : Prop where
  nonempty : text ≠ ""
  trimmed : IsTrimmed text
  chars : ∀ c ∈ text.toList, c ≠ ';' ∧ c ≠ '{' ∧ c ≠ '}' ∧ c ≠ '"' ∧ c ≠ '\''
  noComment : ¬ ['/', '*'] <:+: text.toList
  closed : openParens text.toList = 0

instance Text.instDecidableIsPlainSelector (text : String) : Decidable (IsPlainSelector text) :=
  decidable_of_iff (text ≠ "" ∧ IsTrimmed text ∧
      text.toList.all (fun c => Selector.isAllowed c && !isQuote c) = true)
    ⟨fun h => ⟨h.1, h.2.1, by simpa using h.2.2⟩,
      fun h => ⟨h.nonempty, h.trimmed, by simpa using h.allowed⟩⟩

instance Text.instDecidableIsName (text : String) : Decidable (IsName text) :=
  decidable_of_iff (text ≠ "" ∧ text.toList.all isNameChar = true)
    ⟨fun h => ⟨h.1, by simpa using h.2⟩, fun h => ⟨h.nonempty, by simpa using h.chars⟩⟩

instance Text.instDecidableIsPlainValue (text : String) : Decidable (IsPlainValue text) :=
  decidable_of_iff (text ≠ "" ∧ IsTrimmed text ∧
      text.toList.all
        (fun c => c != ';' && c != '{' && c != '}' && c != '"' && c != '\'') = true ∧
      ¬ ['/', '*'] <:+: text.toList ∧ openParens text.toList = 0)
    ⟨fun h => ⟨h.1, h.2.1, by simpa [and_assoc] using h.2.2.1, h.2.2.2.1, h.2.2.2.2⟩,
      fun h => ⟨h.nonempty, h.trimmed, by simpa [and_assoc] using h.chars, h.noComment,
        h.closed⟩⟩

/-- The texts of the piece and of everything in it are such that they can be read back. -/
inductive Node.Plain : Node → Prop
  | rule {selector : String} {declarations : List (String × String)}
      (hselector : Text.IsPlainSelector selector)
      (hdeclarations : ∀ d ∈ declarations, Text.IsName d.1 ∧ Text.IsPlainValue d.2) :
      Plain (.rule selector declarations)
  | atBlock {name : String} {value : Option String} {nodes : List Node} (hname : Text.IsName name)
      (hvalue : ∀ v, value = some v → Text.IsPlainValue v) (hnodes : ∀ node ∈ nodes, Plain node) :
      Plain (.atBlock name value nodes)
  | atStatement {name value : String} (hname : Text.IsName name)
      (hvalue : Text.IsPlainValue value) : Plain (.atStatement name value)

/-! ## Printing -/

namespace Printing

/-- The indentation of a line at nesting level `k`. -/
def pad (k : Nat) : List Char := List.replicate (2 * k) ' '

/-- A declaration in a rule at nesting level `k`. -/
def declaration (k : Nat) (d : String × String) : List Char :=
  pad k ++ [' ', ' '] ++ d.1.toList ++ [':', ' '] ++ d.2.toList ++ [';', '\n']

/-- An at-rule up to its block or semicolon. -/
def atHeader (name : String) (value : Option String) : List Char :=
  match value with
  | none => '@' :: name.toList
  | some value => '@' :: name.toList ++ ' ' :: value.toList

end Printing

open Printing

mutual

/-- The text of a piece at nesting level `k`. -/
def Node.print (k : Nat) : Node → List Char
  | .rule selector declarations =>
    pad k ++ selector.toList ++ [' ', '{', '\n'] ++ declarations.flatMap (declaration k) ++
      pad k ++ ['}', '\n']
  | .atBlock name value nodes =>
    pad k ++ atHeader name value ++ [' ', '{', '\n'] ++ Node.printAll (k + 1) nodes ++
      pad k ++ ['}', '\n']
  | .atStatement name value => pad k ++ atHeader name (some value) ++ [';', '\n']

/-- The text of several pieces at nesting level `k`. -/
def Node.printAll (k : Nat) : List Node → List Char
  | [] => []
  | node :: nodes => node.print k ++ Node.printAll k nodes

end

/-! ## The tokens of the text -/

namespace Printing

/-- The end of a line and the indentation of the next. -/
def lineEnd (k : Nat) : Shape := .leaf (.whitespace (String.ofList ('\n' :: pad k)))

/-- A declaration after the end of the line before it. -/
def declarationShapes (k : Nat) (d : String × String) : List Shape :=
  [lineEnd (k + 1), .leaf (.property d.1 (some d.2))]

end Printing

mutual

/-- The tokens of a piece at nesting level `k`, without the line end after it. -/
def Node.shapes (k : Nat) : Node → List Shape
  | .rule selector declarations =>
    [.leaf (.selector selector []),
      .block (declarations.flatMap (declarationShapes k) ++ [lineEnd k])]
  | .atBlock name value nodes =>
    [.leaf (.atRule name value true), .block (Node.nestedShapes (k + 1) nodes ++ [lineEnd k])]
  | .atStatement name value => [.leaf (.atRule name (some value) false)]

/-- The tokens of several pieces in a block, each after the end of the line before it. -/
def Node.nestedShapes (k : Nat) : List Node → List Shape
  | [] => []
  | node :: nodes => lineEnd k :: node.shapes k ++ Node.nestedShapes k nodes

end

/-- The tokens of a whole stylesheet. -/
def Node.sheetShapes (nodes : List Node) : List Shape :=
  nodes.flatMap fun node => node.shapes 0 ++ [lineEnd 0]

end Stylesheet
