import Stylesheet.Check.AtRule
import Stylesheet.Check.Indentation
import Stylesheet.Check.Property
import Stylesheet.Check.Selector
import Stylesheet.Source

set_option autoImplicit false

/-! # The checkers

There is one checker for each type of token that can be checked. Handing a checker a token of
another type is a fault of the caller, not a finding about the stylesheet; `checkersFor` names the
checkers to use, and they support the type they are named for. -/

namespace Stylesheet

inductive Checker where
  | atRule
  | property
  | selector
  | indentation
deriving DecidableEq, Repr

/-- Why a run could not go on. -/
inductive Fault where
  /-- A checker was handed a type of token that it does not support. -/
  | unsupported (checker : Checker) (found : TokenType)
  /-- The source could not be read. -/
  | unreadable (error : ReadError)
deriving DecidableEq, Repr

namespace Checker

def all : List Checker := [atRule, property, selector, indentation]

def name : Checker → String
  | atRule => "at-rule"
  | property => "property"
  | selector => "selector"
  | indentation => "indentation"

def supports : Checker → TokenType → Bool
  | atRule, type => type == .atRule
  | property, type => type == .property
  | selector, type => type == .selector
  | indentation, type => type == .whitespace

/-- The findings about a token in its scope. -/
def check (checker : Checker) (k : Knowledge) (scope : Scope) (t : Token) :
    Except Fault (List Finding) :=
  match checker, t with
  | atRule, .leaf place (.atRule name value isBlock) => .ok (Check.atRule k place name value isBlock)
  | property, .leaf place (.property name value) => .ok (Check.property k scope place name value)
  | selector, .leaf place (.selector text anchors) => .ok (Check.selector place text anchors)
  | indentation, .leaf place (.whitespace text) => .ok (Check.indentation k place text)
  | _, t => .error (.unsupported checker t.type)

end Checker

/-- The checkers to use on tokens of a type. -/
def checkersFor : TokenType → List Checker
  | .atRule => [.atRule]
  | .property => [.property]
  | .selector => [.selector]
  | .whitespace => [.indentation]
  | .comment | .block => []

theorem supports_of_mem_checkersFor {checker : Checker} {type : TokenType}
    (h : checker ∈ checkersFor type) : checker.supports type = true := by
  cases type <;> simp [checkersFor] at h <;> subst h <;> rfl

def Fault.message : Fault → String
  | unsupported checker found =>
    checker.name ++ " linter does not support " ++ found.name ++ " tokens"
  | unreadable error => error.message

end Stylesheet
