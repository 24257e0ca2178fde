import Stylesheet.Finding
import Stylesheet.Knowledge
import Stylesheet.Text.Lines

set_option autoImplicit false

/-! # Checking indentation

Every character of an indentation has to be allowed. A run of the same character that is not is
reported once. -/

namespace Stylesheet.Check

/-- A run of one character that is not allowed, `[start, stop)`. -/
structure Run where
  char : Char
  start : Position
  stop : Position
deriving DecidableEq, Repr

/-- The runs of characters that are not allowed in a line whose first character stands at
`position`, given the run that ends right before it, if there is one. -/
def runsFrom (k : Knowledge) (run : Option Run) (position : Position) : List Char → List Run
  | [] => run.toList
  | c :: cs =>
    let next := position.nextColumn
    if k.allowsIndentation c then run.toList ++ runsFrom k none next cs
    else
      match run with
      | some r =>
        if r.char = c then runsFrom k (some { r with stop := next }) next cs
        else r :: runsFrom k (some ⟨c, position, next⟩) next cs
      | none => runsFrom k (some ⟨c, position, next⟩) next cs

/-- The runs of lines of which the first stands on line `line`; every line begins at column one. -/
def lineRuns (k : Knowledge) (line : Nat) : List (List Char) → List Run
  | [] => []
  | cs :: rest => runsFrom k none (.clamped line 1) cs ++ lineRuns k (line + 1) rest

/-- The runs of an indentation that begins at `start`, whatever its line breaks are written as. -/
def runs (k : Knowledge) (start : Position) (text : List Char) : List Run :=
  match Text.lines (Text.unifyBreaks text) with
  | [] => []
  | first :: rest => runsFrom k none start first ++ lineRuns k (start.line + 1) rest

/-- The findings about an indentation that stands at `place`. -/
def indentation (k : Knowledge) (place : Placement) (text : String) : List Finding :=
  (runs k place.start text.toList).map fun run =>
    .spanning (.indentationCharacter run.char) run.start run.stop

end Stylesheet.Check
