import Stylesheet.Config
import Stylesheet.Json.Value

set_option autoImplicit false

/-! # Reading a configuration

A configuration is written as a JSON object with up to four members, or as an array of the same
four values in order, of which the last ones may be left out. Anything else, in particular a member
with another name and a member given twice, makes the text invalid. Within the switches a name may
be repeated, and its last value counts. -/

namespace Stylesheet.Config

open Json (Value)

/-! ## Values -/

/-- A string of exactly one character. -/
def char? : Value → Option Char
  | .string s =>
    match s.toList with
    | [c] => some c
    | _ => none
  | _ => none

/-- `null`, or a list of characters. -/
def indentation? : Value → Option (Option (List Char))
  | .null => some none
  | .array elements => (elements.mapM char?).map some
  | _ => none

def bool? : Value → Option Bool
  | .bool b => some b
  | _ => none

/-- An object whose members are all of one kind; a repeated name takes its last value. -/
def map? {α : Type} (item? : Value → Option α) : Value → Option (Std.TreeMap String α)
  | .object members =>
    members.foldlM (fun map (name, v) => (item? v).map (map.insert name)) {}
  | _ => none

def switches? : Value → Option Switches := map? bool?

/-! ## The four members -/

/-- The members of a configuration. -/
inductive Field where
  | indentation
  | properties
  | atRules
  | descriptors
deriving DecidableEq, Repr

/-- The members in the order of the array form. -/
def Field.all : List Field := [indentation, properties, atRules, descriptors]

def Field.name : Field → String
  | indentation => "allowedIndentationChars"
  | properties => "properties"
  | atRules => "atRules"
  | descriptors => "atRulesProperties"

/-- The configuration with one member set. -/
def set? (c : Config) (field : Field) (v : Value) : Option Config :=
  match field with
  | .indentation => (indentation? v).map fun indentation => { c with indentation }
  | .properties => (switches? v).map fun properties => { c with properties }
  | .atRules => (switches? v).map fun atRules => { c with atRules }
  | .descriptors => (map? switches? v).map fun descriptors => { c with descriptors }

/-- The configuration with the given members set, none of them twice. -/
def setAll? (c : Config) (unset : List Field) : List (String × Value) → Option Config
  | [] => some c
  | (name, v) :: members => do
    let field ← unset.find? (·.name == name)
    let c ← c.set? field v
    c.setAll? (unset.erase field) members

/-- The configuration with the members given in order. -/
def setInOrder? (c : Config) : List Field → List Value → Option Config
  | _, [] => some c
  | [], _ :: _ => none
  | field :: fields, v :: values => do
    let c ← c.set? field v
    c.setInOrder? fields values

def ofValue? : Value → Option Config
  | .object members => setAll? {} Field.all members
  | .array elements => setInOrder? {} Field.all elements
  | _ => none

/-- The configuration that a text spells. -/
def parse? (text : String) : Option Config := (Json.parse? text.toList).bind ofValue?

end Stylesheet.Config
