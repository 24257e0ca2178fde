import Stylesheet.Token

set_option autoImplicit false

/-! # Where a token is checked

Some checks depend on the surroundings of a token: the block it is in, and what stood right before
that block, which is the selector or at-rule the block belongs to. -/

namespace Stylesheet

structure Scope where
  /-- The block that owns the token. -/
  block : Option Token := none
  /-- The token right before that block. -/
  opener : Option Token := none
deriving DecidableEq, Repr

/-- The scope of the outermost sequence. -/
def Scope.topLevel : Scope := {}

/-- The name of the at-rule that the block belongs to. -/
def Scope.atRule? (scope : Scope) : Option String :=
  match scope.opener with
  | some (.leaf _ (.atRule name ..)) => some name
  | _ => none

end Stylesheet
