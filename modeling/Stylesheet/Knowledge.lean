import Stylesheet.Config
import Stylesheet.Text.WordChar
import Stylesheet.Vocabulary

set_option autoImplicit false

/-! # What is known

The checks ask a `Knowledge` which properties and at-rules exist, which descriptors the blocks of
an at-rule may hold, and which characters may indent a line. Names are stored in lower case and
looked up without regard to case; a name with a vendor prefix is also known when it is known
without the prefix. -/

namespace Stylesheet

/-! ## Sets of names -/

/-- A set of names; no name occurs twice. -/
structure NameSet where
  names : List String := []
deriving DecidableEq, Repr

namespace NameSet

def contains (s : NameSet) (name : String) : Bool := s.names.contains name

def isEmpty (s : NameSet) : Bool := s.names.isEmpty

def insert (s : NameSet) (name : String) : NameSet :=
  if s.contains name then s else ⟨name :: s.names⟩

def erase (s : NameSet) (name : String) : NameSet := ⟨s.names.filter (· != name)⟩

/-- The two sets have the same names. -/
def same (a b : NameSet) : Bool := a.names.all b.contains && b.names.all a.contains

@[simp] theorem contains_insert (s : NameSet) (name other : String) :
    (s.insert name).contains other = (other == name || s.contains other) := by
  unfold insert
  split
  · next h =>
    cases hb : other == name
    · simp
    · rw [eq_of_beq hb, h]
      rfl
  · rw [Bool.eq_iff_iff]
    simp [contains]

@[simp] theorem contains_erase (s : NameSet) (name other : String) :
    (s.erase name).contains other = (other != name && s.contains other) := by
  rw [Bool.eq_iff_iff]
  simp [contains, erase, and_comm]

theorem same_iff (a b : NameSet) : a.same b = true ↔ ∀ name, a.contains name = b.contains name := by
  simp only [same, contains, Bool.and_eq_true, List.all_eq_true, List.contains_iff_mem]
  constructor
  · rintro ⟨hab, hba⟩ name
    rw [Bool.eq_iff_iff, List.contains_iff_mem, List.contains_iff_mem]
    exact ⟨hab name, hba name⟩
  · intro h
    constructor
    · intro name hn
      rw [← List.contains_iff_mem] at hn ⊢
      rw [← h name, hn]
    · intro name hn
      rw [← List.contains_iff_mem] at hn ⊢
      rw [h name, hn]

end NameSet

/-! ## Knowledge -/

structure Knowledge where
  properties : NameSet := {}
  atRules : NameSet := {}
  /-- The descriptors of each at-rule that has an entry, which may be empty. -/
  descriptors : List (String × NameSet) := []
  /-- The characters that may indent a line. -/
  indentation : List Char := [' ']
deriving DecidableEq, Repr

namespace Knowledge

/-- Nothing is known, and only spaces indent. -/
def empty : Knowledge := {}

/-- The built-in vocabulary. -/
def builtIn : Knowledge where
  properties := ⟨Vocabulary.properties⟩
  atRules := ⟨Vocabulary.atRules⟩
  descriptors := Vocabulary.descriptors.map fun (atRule, names) => (atRule, ⟨names⟩)

instance : Inhabited Knowledge := ⟨builtIn⟩

/-! ## Looking up -/

/-- What is left of a name after a vendor prefix, if there is one and anything is left. -/
def unprefixed? (name : String) : Option String :=
  match Vocabulary.vendorPrefixes.findSome? fun vendor =>
      vendor.toList.isPrefixOf? name.toList with
  | some (c :: rest) => some (String.ofList (c :: rest))
  | _ => none

/-- The names under which a name is looked up: itself in lower case, and then that without its
vendor prefix. -/
def lookupNames (name : String) : List String :=
  let name := Text.lower name
  name :: (unprefixed? name).toList

def hasProperty (k : Knowledge) (name : String) : Bool :=
  (lookupNames name).any k.properties.contains

/-- The at-rule with this name, written without its `@`, is known. -/
def hasAtRule (k : Knowledge) (name : String) : Bool := (lookupNames name).any k.atRules.contains

/-- The descriptors of an at-rule, if it has an entry. -/
def descriptorsOf? (k : Knowledge) (atRule : String) : Option NameSet :=
  (lookupNames atRule).findSome? fun name => k.descriptors.lookup name

/-- The blocks of the at-rule are restricted to descriptors. -/
def hasDescriptors (k : Knowledge) (atRule : String) : Bool :=
  match k.descriptorsOf? atRule with
  | some names => !names.isEmpty
  | none => false

def hasDescriptor (k : Knowledge) (atRule name : String) : Bool :=
  match k.descriptorsOf? atRule with
  | some names => (lookupNames name).any names.contains
  | none => false

def allowsIndentation (k : Knowledge) (c : Char) : Bool := k.indentation.contains c

/-! ## Changing -/

def addProperty (k : Knowledge) (name : String) : Knowledge :=
  { k with properties := k.properties.insert (Text.lower name) }

def removeProperty (k : Knowledge) (name : String) : Knowledge :=
  { k with properties := k.properties.erase (Text.lower name) }

def addAtRule (k : Knowledge) (name : String) : Knowledge :=
  { k with atRules := k.atRules.insert (Text.lower name) }

def removeAtRule (k : Knowledge) (name : String) : Knowledge :=
  { k with atRules := k.atRules.erase (Text.lower name) }

/-- Changes the entry of an at-rule, given in lower case, if it has one. -/
def modifyDescriptors (k : Knowledge) (atRule : String) (f : NameSet → NameSet) : Knowledge :=
  { k with
    descriptors := k.descriptors.map fun (key, names) =>
      (key, if key == atRule then f names else names) }

/-- Adds a descriptor; an at-rule without an entry gets one. -/
def addDescriptor (k : Knowledge) (atRule name : String) : Knowledge :=
  let atRule := Text.lower atRule
  let name := Text.lower name
  if (k.descriptors.lookup atRule).isSome then k.modifyDescriptors atRule (·.insert name)
  else { k with descriptors := k.descriptors ++ [(atRule, ⟨[name]⟩)] }

/-- Removes a descriptor; the entry of the at-rule stays, even when it becomes empty. -/
def removeDescriptor (k : Knowledge) (atRule name : String) : Knowledge :=
  k.modifyDescriptors (Text.lower atRule) (·.erase (Text.lower name))

def setIndentation (k : Knowledge) (chars : List Char) : Knowledge :=
  { k with indentation := chars }

/-! ## Configuring -/

def switchProperty (k : Knowledge) (name : String) (known : Bool) : Knowledge :=
  if known then k.addProperty name else k.removeProperty name

def switchAtRule (k : Knowledge) (name : String) (known : Bool) : Knowledge :=
  if known then k.addAtRule name else k.removeAtRule name

def switchDescriptor (k : Knowledge) (atRule name : String) (known : Bool) : Knowledge :=
  if known then k.addDescriptor atRule name else k.removeDescriptor atRule name

/-- Applies a configuration: first the indentation, then every switch in order. -/
def configure (k : Knowledge) (c : Config) : Knowledge :=
  let k := match c.indentation with
    | some chars => k.setIndentation chars
    | none => k
  let k := c.properties.foldl switchProperty k
  let k := c.atRules.foldl switchAtRule k
  c.descriptors.foldl (fun k atRule switches => switches.foldl (·.switchDescriptor atRule) k) k

/-- The built-in vocabulary with a configuration applied. -/
def ofConfig (c : Config) : Knowledge := builtIn.configure c

/-! ## Comparing -/

/-- Every entry of `a` has an equal one in `b`. -/
def entriesWithin (a b : List (String × NameSet)) : Bool :=
  a.all fun (atRule, names) =>
    match b.lookup atRule with
    | some other => names.same other
    | none => false

/-- The same is known: the sets have the same names, the same at-rules have entries for the same
descriptors, and the indentation characters are the same in the same order. -/
def same (a b : Knowledge) : Bool :=
  a.properties.same b.properties && a.atRules.same b.atRules &&
    entriesWithin a.descriptors b.descriptors && entriesWithin b.descriptors a.descriptors &&
    a.indentation == b.indentation

end Knowledge

end Stylesheet
