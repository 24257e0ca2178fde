import Mathlib.Tactic.Common
import Stylesheet.Knowledge

set_option autoImplicit false

/-! # Registering and forgetting

A `Term` is something that can be known: a property, an at-rule, or a descriptor of an at-rule.
Registering a term makes more known, and forgetting one makes less known, with one exception. The
descriptors of an at-rule are those of its own entry; only an at-rule without an entry has those of
its name without the vendor prefix. So the first descriptor that is registered for a prefixed name
takes the others away (`Knowledge.register_hides_iff`). -/

namespace Stylesheet

/-- Something that can be known. -/
inductive Term where
  | property (name : String)
  | atRule (name : String)
  | descriptor (atRule name : String)
deriving DecidableEq, Repr

namespace Knowledge

def knows (k : Knowledge) : Term → Bool
  | .property name => k.hasProperty name
  | .atRule name => k.hasAtRule name
  | .descriptor atRule name => k.hasDescriptor atRule name

def register (k : Knowledge) : Term → Knowledge
  | .property name => k.addProperty name
  | .atRule name => k.addAtRule name
  | .descriptor atRule name => k.addDescriptor atRule name

def forget (k : Knowledge) : Term → Knowledge
  | .property name => k.removeProperty name
  | .atRule name => k.removeAtRule name
  | .descriptor atRule name => k.removeDescriptor atRule name

/-! ## Entries -/

/-- The descriptors in the own entry of an at-rule, given in lower case. -/
def own? (k : Knowledge) (atRule : String) : Option NameSet := k.descriptors.lookup atRule

theorem lookup_modify (entries : List (String × NameSet)) (f : NameSet → NameSet)
    (atRule other : String) :
    (entries.map fun (key, names) => (key, if key == atRule then f names else names)).lookup other =
      if other = atRule then (entries.lookup other).map f else entries.lookup other := by
  induction entries with
  | nil => simp
  | cons entry entries ih =>
    obtain ⟨key, names⟩ := entry
    rw [List.map_cons, List.lookup_cons, List.lookup_cons, ih]
    by_cases hkey : other = key
    · subst hkey
      rw [beq_self_eq_true]
      by_cases hother : other = atRule <;> simp [hother]
    · rw [beq_false_of_ne hkey]

@[simp] theorem own?_modifyDescriptors (k : Knowledge) (f : NameSet → NameSet)
    (atRule other : String) :
    (k.modifyDescriptors atRule f).own? other =
      if other = atRule then (k.own? other).map f else k.own? other :=
  lookup_modify k.descriptors f atRule other

/-- An at-rule gets an entry with its first descriptor. -/
theorem own?_addDescriptor (k : Knowledge) (atRule name other : String) :
    (k.addDescriptor atRule name).own? other =
      if other = Text.lower atRule then
        some (((k.own? other).getD {}).insert (Text.lower name))
      else k.own? other := by
  rw [addDescriptor]
  cases hentry : k.descriptors.lookup (Text.lower atRule) with
  | some names =>
    rw [Option.isSome_some, if_pos rfl, own?_modifyDescriptors]
    split
    · next hother => rw [hother, own?, hentry, Option.map_some, Option.getD_some]
    · rfl
  | none =>
    rw [Option.isSome_none, if_neg Bool.false_ne_true, own?, own?, List.lookup_append]
    split
    · next hother => rw [hother, hentry, Option.none_or, List.lookup_cons_self]; rfl
    · next hother =>
      rw [List.lookup_cons, beq_false_of_ne hother]
      exact Option.or_none

@[simp] theorem properties_addDescriptor (k : Knowledge) (atRule name : String) :
    (k.addDescriptor atRule name).properties = k.properties := by
  rw [addDescriptor]
  split <;> rfl

@[simp] theorem atRules_addDescriptor (k : Knowledge) (atRule name : String) :
    (k.addDescriptor atRule name).atRules = k.atRules := by
  rw [addDescriptor]
  split <;> rfl

@[simp] theorem indentation_addDescriptor (k : Knowledge) (atRule name : String) :
    (k.addDescriptor atRule name).indentation = k.indentation := by
  rw [addDescriptor]
  split <;> rfl

/-- Removing a descriptor leaves the entry of its at-rule in place. -/
theorem own?_removeDescriptor (k : Knowledge) (atRule name other : String) :
    (k.removeDescriptor atRule name).own? other =
      if other = Text.lower atRule then (k.own? other).map (·.erase (Text.lower name))
      else k.own? other :=
  own?_modifyDescriptors k _ _ other

/-- An at-rule is looked up by its name, and without the vendor prefix only when that has no
entry. -/
theorem descriptorsOf?_eq (k : Knowledge) (atRule : String) :
    k.descriptorsOf? atRule =
      (k.own? (Text.lower atRule)).or ((unprefixed? (Text.lower atRule)).bind k.own?) := by
  rw [descriptorsOf?, lookupNames]
  show List.findSome? k.own? (Text.lower atRule :: (unprefixed? (Text.lower atRule)).toList) = _
  rw [List.findSome?_cons]
  cases k.own? (Text.lower atRule) with
  | some names => rfl
  | none => cases unprefixed? (Text.lower atRule) <;> simp

theorem hasDescriptor_iff {k : Knowledge} {atRule name : String} :
    k.hasDescriptor atRule name = true ↔
      ∃ names, k.descriptorsOf? atRule = some names ∧
        ∃ n ∈ lookupNames name, names.contains n = true := by
  rw [hasDescriptor]
  cases k.descriptorsOf? atRule <;> simp

end Knowledge

/-! ## More and less known -/

/-- All names of the one set are in the other. -/
def NameSet.Within (a b : NameSet) : Prop := ∀ name, a.contains name = true → b.contains name = true

namespace NameSet

theorem within_refl (a : NameSet) : a.Within a := fun _ h => h

theorem within_insert (a : NameSet) (name : String) : a.Within (a.insert name) := by
  intro other h
  rw [contains_insert, h, Bool.or_true]

theorem erase_within (a : NameSet) (name : String) : (a.erase name).Within a := by
  intro other h
  rw [contains_erase, Bool.and_eq_true] at h
  exact h.2

theorem Within.any {a b : NameSet} (h : a.Within b) {names : List String}
    (ha : names.any a.contains = true) : names.any b.contains = true := by
  rw [List.any_eq_true] at ha ⊢
  obtain ⟨name, hname, hcontains⟩ := ha
  exact ⟨name, hname, h name hcontains⟩

end NameSet

namespace Knowledge

variable {k k' : Knowledge}

/-- A descriptor stays known while entries grow and the at-rule does not get an entry that it did
not have. -/
theorem hasDescriptor_mono {atRule name : String}
    (hgrow : ∀ key names, k.own? key = some names →
      ∃ names', k'.own? key = some names' ∧ names.Within names')
    (hnone : k.own? (Text.lower atRule) = none → k'.own? (Text.lower atRule) = none)
    (h : k.hasDescriptor atRule name = true) : k'.hasDescriptor atRule name = true := by
  rw [hasDescriptor_iff] at h ⊢
  obtain ⟨names, hnames, n, hn, hcontains⟩ := h
  rw [descriptorsOf?_eq, Option.or_eq_some_iff] at hnames
  rcases hnames with hown | ⟨hown, hunprefixed⟩
  · obtain ⟨names', hown', hwithin⟩ := hgrow _ _ hown
    exact ⟨names', by rw [descriptorsOf?_eq, hown', Option.some_or], n, hn, hwithin n hcontains⟩
  · obtain ⟨rest, hrest, hentry⟩ := Option.bind_eq_some_iff.1 hunprefixed
    obtain ⟨names', hentry', hwithin⟩ := hgrow _ _ hentry
    refine ⟨names', ?_, n, hn, hwithin n hcontains⟩
    rw [descriptorsOf?_eq, hnone hown, Option.none_or, hrest, Option.bind_some, hentry']

/-- Registering `x` hides `y`: the two are descriptors of one at-rule, which has no entry of its own
so far and is known to have `y` by its name without the vendor prefix, and `x` is not `y`. -/
def Shadows (k : Knowledge) : Term → Term → Prop
  | .descriptor atRule name, .descriptor atRule' name' =>
    Text.lower atRule' = Text.lower atRule ∧ k.own? (Text.lower atRule) = none ∧
      k.hasDescriptor atRule' name' = true ∧ Text.lower name ∉ lookupNames name'
  | _, _ => False

/-- The entries that registering a descriptor leaves are those there were, some with one name
more. -/
theorem within_addDescriptor {atRule name key : String} {names : NameSet}
    (h : k.own? key = some names) :
    ∃ names', (k.addDescriptor atRule name).own? key = some names' ∧ names.Within names' := by
  rw [own?_addDescriptor]
  split
  · exact ⟨_, rfl, by rw [h]; exact names.within_insert _⟩
  · exact ⟨names, h, names.within_refl⟩

theorem removeDescriptor_within {atRule name key : String} {names : NameSet}
    (h : (k.removeDescriptor atRule name).own? key = some names) :
    ∃ names', k.own? key = some names' ∧ names.Within names' := by
  rw [own?_removeDescriptor] at h
  split at h
  · obtain ⟨names', hnames', rfl⟩ := Option.map_eq_some_iff.1 h
    exact ⟨names', hnames', names'.erase_within _⟩
  · exact ⟨names, h, names.within_refl⟩

/-- The first descriptor of an at-rule is the only one in its entry. -/
theorem hasDescriptor_addDescriptor_first {atRule name atRule' name' : String}
    (hatRule : Text.lower atRule' = Text.lower atRule)
    (hnone : k.own? (Text.lower atRule) = none) :
    (k.addDescriptor atRule name).hasDescriptor atRule' name' = true ↔
      Text.lower name ∈ lookupNames name' := by
  have hdescriptors : (k.addDescriptor atRule name).descriptorsOf? atRule' =
      some (({} : NameSet).insert (Text.lower name)) := by
    rw [descriptorsOf?_eq, own?_addDescriptor, if_pos hatRule, hatRule, hnone]
    rfl
  have hempty (n : String) : ({} : NameSet).contains n = false := rfl
  rw [hasDescriptor_iff, hdescriptors]
  simp [hempty]

/-- Registering a descriptor hides just those that it shadows. -/
theorem addDescriptor_hides_iff {atRule name atRule' name' : String}
    (h : k.hasDescriptor atRule' name' = true) :
    (k.addDescriptor atRule name).hasDescriptor atRule' name' = false ↔
      k.Shadows (.descriptor atRule name) (.descriptor atRule' name') := by
  by_cases hfirst : Text.lower atRule' = Text.lower atRule ∧ k.own? (Text.lower atRule) = none
  · obtain ⟨hatRule, hnone⟩ := hfirst
    rw [← Bool.not_eq_true, hasDescriptor_addDescriptor_first hatRule hnone]
    exact ⟨fun hname => ⟨hatRule, hnone, h, hname⟩, fun hshadows => hshadows.2.2.2⟩
  · -- the at-rule has an entry already, or gets none
    have hkept : (k.addDescriptor atRule name).hasDescriptor atRule' name' = true := by
      refine hasDescriptor_mono (fun key names => within_addDescriptor) ?_ h
      intro hnone
      rw [own?_addDescriptor, if_neg, hnone]
      intro hatRule
      exact hfirst ⟨hatRule, hatRule ▸ hnone⟩
    rw [hkept]
    refine iff_of_false (fun heq => Bool.noConfusion heq) ?_
    intro hshadows
    exact hfirst ⟨hshadows.1, hshadows.2.1⟩

theorem Shadows.knows {x y : Term} (h : k.Shadows x y) : k.knows y = true := by
  cases x with
  | descriptor atRule name =>
    cases y with
    | descriptor atRule' name' => exact h.2.2.1
    | _ => exact h.elim
  | _ => exact h.elim

/-- What is known stays so when something is registered, except for what that shadows. -/
theorem register_eq_false_iff {x y : Term} (h : k.knows y = true) :
    (k.register x).knows y = false ↔ k.Shadows x y := by
  have hkept (hknows : (k.register x).knows y = true) (hnot : ¬ k.Shadows x y) :
      (k.register x).knows y = false ↔ k.Shadows x y :=
    iff_of_false (by rw [hknows]; exact Bool.noConfusion) hnot
  cases x with
  | property name =>
    cases y with
    | property other => exact hkept (NameSet.Within.any (k.properties.within_insert _) h) id
    | _ => exact hkept h id
  | atRule name =>
    cases y with
    | atRule other => exact hkept (NameSet.Within.any (k.atRules.within_insert _) h) id
    | _ => exact hkept h id
  | descriptor atRule name =>
    cases y with
    | descriptor atRule' name' => exact addDescriptor_hides_iff h
    | property other =>
      refine hkept ?_ id
      rw [register, knows, hasProperty, properties_addDescriptor]
      exact h
    | atRule other =>
      refine hkept ?_ id
      rw [register, knows, hasAtRule, atRules_addDescriptor]
      exact h

/-- What is forgotten was known before. -/
theorem knows_of_forget {x y : Term} (h : (k.forget x).knows y = true) : k.knows y = true := by
  cases x with
  | property name =>
    cases y with
    | property other => exact NameSet.Within.any (k.properties.erase_within _) h
    | _ => exact h
  | atRule name =>
    cases y with
    | atRule other => exact NameSet.Within.any (k.atRules.erase_within _) h
    | _ => exact h
  | descriptor atRule name =>
    cases y with
    | descriptor atRule' name' =>
      refine hasDescriptor_mono (fun key names => removeDescriptor_within) ?_ h
      intro hnone
      rw [own?_removeDescriptor] at hnone
      split at hnone
      · exact Option.map_eq_none_iff.1 hnone
      · exact hnone
    | _ => exact h

/-- Whatever is known and by whatever changes it came to be, registering a term makes unknown just
the terms that it shadows, and forgetting one makes nothing known. -/
theorem register_hides_iff (k : Knowledge) (x y : Term) :
    (k.knows y = true ∧ (k.register x).knows y = false ↔ k.Shadows x y) ∧
      ((k.forget x).knows y = true → k.knows y = true) := by
  refine ⟨?_, knows_of_forget⟩
  constructor
  · rintro ⟨hknows, hhidden⟩
    exact (register_eq_false_iff hknows).1 hhidden
  · intro hshadows
    exact ⟨hshadows.knows, (register_eq_false_iff hshadows.knows).2 hshadows⟩

/-- A descriptor of one at-rule, registered or forgotten, leaves those of another as they are. -/
theorem register_hides_iff_src :
    let k := builtIn.register (.descriptor "font-face" "font-named-instance")
    let x := Term.descriptor "Font-Face" "FONT-NAMED-INSTANCE"
    let y := Term.descriptor "-moz-font-face" "src"
    (k.forget x).knows y = true ∧ k.knows y = true ∧ (k.register x).knows y = true := by
  intro k x y
  have hforget : (k.forget x).knows y = true := by decide +kernel
  obtain ⟨hhides, hknows⟩ := register_hides_iff k x y
  have hshadows : ¬ k.Shadows x y := by
    rintro ⟨hatRule, -⟩
    exact absurd hatRule (by decide +kernel)
  refine ⟨hforget, hknows hforget, ?_⟩
  by_contra hhidden
  exact hshadows (hhides.1 ⟨hknows hforget, (Bool.not_eq_true _).mp hhidden⟩)

/-- A descriptor of a prefixed at-rule takes those away that it had without the prefix. -/
theorem registered_descriptor_hides_src :
    let x := Term.descriptor "-webkit-font-face" "x"
    let y := Term.descriptor "-webkit-font-face" "src"
    builtIn.knows y = true ∧ (builtIn.register x).knows y = false := by
  decide +kernel

end Knowledge

end Stylesheet
