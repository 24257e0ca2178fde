import Stylesheet.Check.Checker
import Stylesheet.Tokenize

set_option autoImplicit false

/-! # Linting

Linting a source gives the structural findings of its scan and, in place of each token, the
findings of the checkers about the token and everything nested in it. A token is checked in the
scope of the block that owns it and of what stands right before that block. -/

namespace Stylesheet

/-- The findings of the checkers for a token's type. -/
def checkToken (k : Knowledge) (scope : Scope) (t : Token) : Except Fault (List Finding) := do
  let found ← (checkersFor t.type).mapM (Checker.check · k scope t)
  return found.flatten

mutual

/-- The findings about a token and everything in it; `previous` is the token right before it. -/
def lintTree (k : Knowledge) (scope : Scope) (previous : Option Token) (t : Token) :
    Except Fault (List Finding) :=
  match t with
  | .leaf place content => checkToken k scope (.leaf place content)
  | .block place children => do
    let own ← checkToken k scope (.block place children)
    let inner : Scope := { block := some (.block place children), opener := previous }
    let nested ← lintSequence k inner children children
    return own ++ nested

/-- The findings about the tokens of a sequence, in order. The token before each is the one among
its `siblings` that it names as such. -/
def lintSequence (k : Knowledge) (scope : Scope) (siblings : List Token) (ts : List Token) :
    Except Fault (List Finding) :=
  match ts with
  | [] => return []
  | t :: ts => do
    let first ← lintTree k scope (t.previous.bind (Token.find? siblings)) t
    let rest ← lintSequence k scope siblings ts
    return first ++ rest

end

/-- The findings for the items of a token stream, given the last token before them. -/
def lintItems (k : Knowledge) (previous : Option Token) : List Item → Stream Fault Finding
  | [] => {}
  | .finding f :: items =>
    let rest := lintItems k previous items
    { rest with items := f :: rest.items }
  | .token t :: items =>
    match lintTree k .topLevel (previous.filter fun p => t.previous = some p.id) t with
    | .error fault => { failure := some fault }
    | .ok found =>
      let rest := lintItems k (some t) items
      { rest with items := found ++ rest.items }

namespace Source

/-- The findings about a source, in stream order. -/
def findings (source : Source) (k : Knowledge) : Stream Fault Finding :=
  let tokens := source.tokenize
  let found := lintItems k none tokens.items
  { found with failure := found.failure.or (tokens.failure.map Fault.unreadable) }

/-- The findings about a source that can be read to its end. -/
def lint (source : Source) (k : Knowledge) : Except Fault (List Finding) :=
  (source.findings k).toExcept

end Source

end Stylesheet
