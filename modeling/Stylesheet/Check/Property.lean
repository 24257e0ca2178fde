import Stylesheet.Check.Scope
import Stylesheet.Finding
import Stylesheet.Knowledge

set_option autoImplicit false

/-! # Checking declarations

The name of a declaration has to be well formed and known; names of custom properties, which begin
with two hyphens, are free. In the block of an at-rule with descriptors only these are known. A
declaration also needs a value. -/

namespace Stylesheet.Check

/-- The name is that of a custom property. -/
def isCustomName (name : List Char) : Bool := ['-', '-'].isPrefixOf name

/-- Two hyphens and at least one name character. -/
def isWellFormedCustomName : List Char → Bool
  | '-' :: '-' :: rest => !rest.isEmpty && rest.all Text.isNameChar
  | _ => false

/-- At most one hyphen, then a letter or low line, then name characters. -/
def isWellFormedName (name : List Char) : Bool :=
  let name := match name with
    | '-' :: rest => rest
    | _ => name
  match name with
  | [] => false
  | c :: rest => (Text.isAsciiLetter c || c == '_') && rest.all Text.isNameChar

/-- The at-rule whose descriptors are the only properties known in the scope. -/
def restrictingAtRule? (k : Knowledge) (scope : Scope) : Option String :=
  scope.atRule?.filter k.hasDescriptors

/-- What is wrong with the name of a declaration. -/
def nameIssue? (k : Knowledge) (scope : Scope) (name : String) : Option Issue :=
  if isCustomName name.toList then
    if isWellFormedCustomName name.toList then none else some (.customPropertyName name)
  else if !isWellFormedName name.toList then some (.propertyName name)
  else if scope.block.isNone then some (.propertyOutsideBlock name)
  else
    match restrictingAtRule? k scope with
    | some atRule =>
      if k.hasDescriptor atRule name then none else some (.unknownDescriptor name atRule)
    | none => if k.hasProperty name then none else some (.unknownProperty name)

/-- What is wrong with a declaration. -/
def propertyIssues (k : Knowledge) (scope : Scope) (name : String) (value : Option String) :
    List Issue :=
  if name = "" then [.emptyPropertyName]
  else
    (nameIssue? k scope name).toList ++ (if value.isNone then [.emptyPropertyValue name] else [])

/-- The findings about a declaration that stands at `place`. -/
def property (k : Knowledge) (scope : Scope) (place : Placement) (name : String)
    (value : Option String) : List Finding :=
  (propertyIssues k scope name value).map (.spanning · place.start place.stop)

end Stylesheet.Check
