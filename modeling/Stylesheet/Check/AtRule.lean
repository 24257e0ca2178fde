import Stylesheet.Finding
import Stylesheet.Knowledge
import Stylesheet.Prelude

set_option autoImplicit false

/-! # Checking at-rules

An at-rule needs a name that is known. If its prelude has a grammar, the prelude has to follow it.
At most one thing is reported of an at-rule. -/

namespace Stylesheet.Check

/-- What is wrong with the prelude of an import: it has to begin with an address, and what follows
the address, trimmed, has to be conditions. -/
def importIssue? : Option String → Option Issue
  | none => some .importWithoutUrl
  | some value =>
    match Prelude.importUrl.restAfter? value.toList with
    | none => some (.importUrl value)
    | some rest =>
      let conditions := Text.trim rest
      if Prelude.importConditions.accepts conditions then none
      else some (.importConditions (String.ofList conditions))

/-- What is wrong with the prelude of a character set rule: it has to be a single string. -/
def charsetIssue? : Option String → Option Issue
  | none => some .charsetWithoutValue
  | some value => if Prelude.quoted.accepts value.toList then none else some (.charsetValue value)

/-- What is wrong with the prelude of a layer rule: it has to be a list of layer names. Only a
layer with a block can go without a name. -/
def layerIssue? (isBlock : Bool) : Option String → Option Issue
  | none => if isBlock then none else some .layerWithoutName
  | some value =>
    let text := value.toList
    if text.getLast? = some ',' then some (.layerEndingInComma value)
    else if Prelude.hasAdjacentCommas text then some (.layerWithAdjacentCommas value)
    else if Prelude.layerNames.accepts text then none
    else some (.layerNames value)

/-- What is wrong with an at-rule. -/
def atRuleIssue? (k : Knowledge) (name : String) (value : Option String) (isBlock : Bool) :
    Option Issue :=
  if name = "" then some .emptyAtRuleName
  else if !k.hasAtRule name then some (.unknownAtRule name)
  else if Text.lower name = "import" then importIssue? value
  else if Text.lower name = "charset" then charsetIssue? value
  else if Text.lower name = "layer" then layerIssue? isBlock value
  else none

/-- The findings about an at-rule that stands at `place`. -/
def atRule (k : Knowledge) (place : Placement) (name : String) (value : Option String)
    (isBlock : Bool) : List Finding :=
  ((atRuleIssue? k name value isBlock).map (.spanning · place.start place.stop)).toList

end Stylesheet.Check
