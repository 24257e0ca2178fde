import Mathlib.Data.List.Pairwise
import Stylesheet.Proofs.ByteOrder
import Stylesheet.Proofs.Knowledge

set_option autoImplicit false

/-! # What a configuration means

A configuration is a list of switches, each of which registers or forgets a term, in the order in
which they take effect (`Config.switches`). A switch decides whether its own term is listed and
nothing else, so after all of them a term is listed as the last of its switches says, and as before
when it has none (`Knowledge.lists_switchAll`). Several keys may be spellings of one term; the last
of them in the order of their bytes is the one that counts (`Knowledge.configure_iff`). -/

namespace Stylesheet

/-! ## Lower case -/

namespace Text

theorem toLower_toLower (c : Char) : c.toLower.toLower = c.toLower := by
  unfold Char.toLower
  split
  · next h =>
    -- a capital letter is moved past the last of them
    have hfirst : 65 ≤ c.val.toNat := h.1
    have hlast : c.val.toNat ≤ 90 := h.2
    have hmoved : (c.val + ('a'.val - 'A'.val)).toNat = c.val.toNat + 32 := by
      rw [UInt32.toNat_add]
      show (c.val.toNat + 32) % 4294967296 = _
      omega
    rw [dif_neg]
    rintro ⟨-, hle⟩
    have hle' : (c.val + ('a'.val - 'A'.val)).toNat ≤ 90 := hle
    omega
  · rfl

@[simp] theorem lower_lower (s : String) : lower (lower s) = lower s := by
  rw [← String.toList_inj, toList_lower, toList_lower, List.map_map]
  exact List.map_congr_left fun c _ => toLower_toLower c

theorem lower_ofList {cs : List Char} (h : cs.map Char.toLower = cs) :
    lower (String.ofList cs) = String.ofList cs := by
  rw [lower, String.toList_ofList, h]

end Text

namespace Term

/-- The term by its names in lower case. -/
def lowered : Term → Term
  | .property name => .property (Text.lower name)
  | .atRule name => .atRule (Text.lower name)
  | .descriptor owner name => .descriptor (Text.lower owner) (Text.lower name)

/-- The at-rule that a descriptor belongs to, in lower case. -/
def owner? : Term → Option String
  | .descriptor owner _ => some (Text.lower owner)
  | _ => none

theorem lowered_lowered (x : Term) : x.lowered.lowered = x.lowered := by
  cases x <;> simp [lowered]

theorem lower_owner {x : Term} {owner : String} (h : x.owner? = some owner) :
    Text.lower owner = owner := by
  cases x with
  | descriptor owner' name =>
    obtain rfl := Option.some.inj h
    exact Text.lower_lower owner'
  | _ => exact absurd h (Option.some_ne_none owner).symm

end Term

/-! ## One switch -/

namespace NameSet

def switch (s : NameSet) (name : String) (known : Bool) : NameSet :=
  if known then s.insert name else s.erase name

theorem contains_switch (s : NameSet) (name other : String) (known : Bool) :
    (s.switch name known).contains other = if name = other then known else s.contains other := by
  by_cases h : name = other
  · subst h
    cases known <;> simp [switch]
  · have hne : other ≠ name := Ne.symm h
    cases known <;> simp [switch, h, hne]

end NameSet

namespace Knowledge

/-- The term is in the tables, spelled as it is. -/
def lists (k : Knowledge) : Term → Bool
  | .property name => k.properties.contains name
  | .atRule name => k.atRules.contains name
  | .descriptor owner name => ((k.own? owner).getD {}).contains name

/-- Registers or forgets a term. -/
def switch (k : Knowledge) (x : Term) (known : Bool) : Knowledge :=
  if known then k.register x else k.forget x

theorem properties_switch (k : Knowledge) (x : Term) (known : Bool) :
    (k.switch x known).properties =
      match x with
      | .property name => k.properties.switch (Text.lower name) known
      | _ => k.properties := by
  cases known with
  | true =>
    cases x with
    | descriptor owner name => exact properties_addDescriptor k owner name
    | _ => rfl
  | false => cases x <;> rfl

theorem atRules_switch (k : Knowledge) (x : Term) (known : Bool) :
    (k.switch x known).atRules =
      match x with
      | .atRule name => k.atRules.switch (Text.lower name) known
      | _ => k.atRules := by
  cases known with
  | true =>
    cases x with
    | descriptor owner name => exact atRules_addDescriptor k owner name
    | _ => rfl
  | false => cases x <;> rfl

theorem indentation_switch (k : Knowledge) (x : Term) (known : Bool) :
    (k.switch x known).indentation = k.indentation := by
  cases known with
  | true =>
    cases x with
    | descriptor owner name => exact indentation_addDescriptor k owner name
    | _ => rfl
  | false => cases x <;> rfl

theorem own?_switch_of_owner? {x : Term} (h : x.owner? = none) (k : Knowledge) (known : Bool) :
    (k.switch x known).own? = k.own? := by
  cases x with
  | descriptor owner name => exact absurd h (Option.some_ne_none _)
  | _ => cases known <;> rfl

/-- The entry of an at-rule after a switch for one of its descriptors: switching on creates it. -/
theorem own?_switch (k : Knowledge) (owner name other : String) (known : Bool) :
    (k.switch (.descriptor owner name) known).own? other =
      if other = Text.lower owner then
        (if known then some ((k.own? other).getD {}) else k.own? other).map
          (·.switch (Text.lower name) known)
      else k.own? other := by
  cases known with
  | true => exact own?_addDescriptor k owner name other
  | false => exact own?_removeDescriptor k owner name other

/-- A switch decides about its own term and leaves the others as they are. -/
theorem lists_switch (k : Knowledge) (x y : Term) (known : Bool) :
    (k.switch x known).lists y = if x.lowered = y then known else k.lists y := by
  cases y with
  | property other =>
    rw [lists, properties_switch]
    cases x with
    | property name =>
      simp only [NameSet.contains_switch, Term.lowered, Term.property.injEq, lists]
    | _ => simp [Term.lowered, lists]
  | atRule other =>
    rw [lists, atRules_switch]
    cases x with
    | atRule name => simp only [NameSet.contains_switch, Term.lowered, Term.atRule.injEq, lists]
    | _ => simp [Term.lowered, lists]
  | descriptor owner other =>
    cases x with
    | descriptor owner' name =>
      rw [lists, own?_switch]
      simp only [Term.lowered, Term.descriptor.injEq, lists]
      by_cases howner : owner = Text.lower owner'
      · rw [if_pos howner, howner]
        simp only [true_and]
        rw [← NameSet.contains_switch]
        cases known <;> cases k.own? (Text.lower owner') <;> rfl
      · rw [if_neg howner, if_neg fun h => howner h.1.symm]
    | _ =>
      rw [lists, own?_switch_of_owner? rfl]
      simp [Term.lowered, lists]

/-- An at-rule gets an entry when a descriptor of it is switched on, and never loses it. -/
theorem isSome_own?_switch (k : Knowledge) (x : Term) (known : Bool) (other : String) :
    ((k.switch x known).own? other).isSome =
      ((k.own? other).isSome || (known && x.owner? == some other)) := by
  cases x with
  | descriptor owner name =>
    rw [own?_switch]
    by_cases howner : other = Text.lower owner
    · rw [if_pos howner, Option.isSome_map, howner]
      cases known <;> simp [Term.owner?]
    · have hne : (Term.descriptor owner name).owner? ≠ some other := by
        simpa [Term.owner?] using Ne.symm howner
      rw [if_neg howner, beq_false_of_ne hne, Bool.and_false, Bool.or_false]
  | _ =>
    rw [own?_switch_of_owner? rfl]
    simp [Term.owner?]

/-! ## All switches -/

/-- Registers and forgets terms one after the other. -/
def switchAll (k : Knowledge) (switches : List (Term × Bool)) : Knowledge :=
  switches.foldl (fun k e => k.switch e.1 e.2) k

end Knowledge

/-- What the last of the switches for `x` says. -/
def verdict? (x : Term) : List (Term × Bool) → Option Bool
  | [] => none
  | e :: switches => (verdict? x switches).or (if e.1.lowered = x then some e.2 else none)

theorem verdict?_eq_none_iff {x : Term} {switches : List (Term × Bool)} :
    verdict? x switches = none ↔ ∀ e ∈ switches, e.1.lowered ≠ x := by
  induction switches with
  | nil => simp [verdict?]
  | cons e switches ih =>
    rw [verdict?, Option.or_eq_none_iff, ih, List.forall_mem_cons, and_comm]
    simp

/-- The last switch is the one after which no other switch is for the same term. -/
theorem verdict?_eq_some_iff {x : Term} {switches : List (Term × Bool)} {known : Bool} :
    verdict? x switches = some known ↔
      ∃ before y after, switches = before ++ (y, known) :: after ∧ y.lowered = x ∧
        ∀ e ∈ after, e.1.lowered ≠ x := by
  induction switches with
  | nil => simp [verdict?]
  | cons e switches ih =>
    rw [verdict?, Option.or_eq_some_iff, ih, verdict?_eq_none_iff]
    constructor
    · rintro (⟨before, y, after, rfl, hy, hafter⟩ | ⟨hnone, hfirst⟩)
      · exact ⟨e :: before, y, after, rfl, hy, hafter⟩
      · obtain ⟨hy, hknown⟩ := Option.ite_none_right_eq_some.1 hfirst
        obtain rfl := Option.some.inj hknown
        exact ⟨[], e.1, switches, rfl, hy, hnone⟩
    · rintro ⟨before, y, after, hsplit, hy, hafter⟩
      cases before with
      | nil =>
        obtain ⟨rfl, rfl⟩ := List.cons.inj hsplit
        exact Or.inr ⟨hafter, if_pos hy⟩
      | cons first before =>
        obtain ⟨rfl, rfl⟩ := List.cons.inj hsplit
        exact Or.inl ⟨before, y, after, rfl, hy, hafter⟩

namespace Knowledge

/-- After all switches a term is listed as the last of those for it says, and otherwise as
before. -/
theorem lists_switchAll (k : Knowledge) (switches : List (Term × Bool)) (x : Term) :
    (k.switchAll switches).lists x = (verdict? x switches).getD (k.lists x) := by
  induction switches generalizing k with
  | nil => rfl
  | cons e switches ih =>
    show ((k.switch e.1 e.2).switchAll switches).lists x = _
    rw [ih, lists_switch, verdict?]
    cases verdict? x switches with
    | some known => rfl
    | none => split <;> rfl

theorem isSome_own?_switchAll (k : Knowledge) (switches : List (Term × Bool)) (other : String) :
    ((k.switchAll switches).own? other).isSome =
      ((k.own? other).isSome || switches.any fun e => e.2 && e.1.owner? == some other) := by
  induction switches generalizing k with
  | nil => exact (Bool.or_false _).symm
  | cons e switches ih =>
    show (((k.switch e.1 e.2).switchAll switches).own? other).isSome = _
    rw [ih, isSome_own?_switch, List.any_cons, Bool.or_assoc]

theorem indentation_switchAll (k : Knowledge) (switches : List (Term × Bool)) :
    (k.switchAll switches).indentation = k.indentation := by
  induction switches generalizing k with
  | nil => rfl
  | cons e switches ih =>
    show ((k.switch e.1 e.2).switchAll switches).indentation = _
    rw [ih, indentation_switch]

end Knowledge

/-! ## The switches of a configuration -/

namespace Config

/-- The switches in the order in which they take effect. -/
def switches (c : Config) : List (Term × Bool) :=
  c.properties.toList.map (fun e => (.property e.1, e.2)) ++
    c.atRules.toList.map (fun e => (.atRule e.1, e.2)) ++
    c.descriptors.toList.flatMap fun owned =>
      owned.2.toList.map fun e => (.descriptor owned.1 e.1, e.2)

/-- The configuration has a switch with the key `x`. -/
def Switch (c : Config) : Term → Bool → Prop
  | .property name, known => c.properties[name]? = some known
  | .atRule name, known => c.atRules[name]? = some known
  | .descriptor owner name, known =>
    ∃ switches, c.descriptors[owner]? = some switches ∧ switches[name]? = some known

theorem mem_switches_iff {c : Config} {x : Term} {known : Bool} :
    (x, known) ∈ c.switches ↔ c.Switch x known := by
  cases x with
  | property name => simp [switches, Switch, Std.TreeMap.mem_toList_iff_getElem?_eq_some]
  | atRule name => simp [switches, Switch, Std.TreeMap.mem_toList_iff_getElem?_eq_some]
  | descriptor owner name =>
    simp [switches, Switch, Std.TreeMap.mem_toList_iff_getElem?_eq_some]

end Config

/-- `x` comes before `y` in the order of bytes: of their names, and for descriptors first of the
names of their at-rules. -/
def Term.Before : Term → Term → Prop
  | .property name, .property name' => Text.bytes name < Text.bytes name'
  | .atRule name, .atRule name' => Text.bytes name < Text.bytes name'
  | .descriptor owner name, .descriptor owner' name' =>
    Text.bytes owner < Text.bytes owner' ∨ owner = owner' ∧ Text.bytes name < Text.bytes name'
  | _, _ => False

theorem Term.Before.not_before {x y : Term} (h : x.Before y) : ¬ y.Before x := by
  cases x with
  | property name =>
    cases y with
    | property name' => exact List.lt_asymm h
    | _ => exact h.elim
  | atRule name =>
    cases y with
    | atRule name' => exact List.lt_asymm h
    | _ => exact h.elim
  | descriptor owner name =>
    cases y with
    | descriptor owner' name' =>
      rcases h with h | ⟨rfl, h⟩
      · rintro (hback | ⟨rfl, -⟩)
        · exact List.lt_asymm h hback
        · exact List.lt_irrefl _ h
      · rintro (hback | ⟨-, hback⟩)
        · exact List.lt_irrefl _ hback
        · exact List.lt_asymm h hback
    | _ => exact h.elim

namespace Config

theorem pairwise_bytes_lt {α : Type} (switches : Std.TreeMap String α) :
    switches.toList.Pairwise fun a b => Text.bytes a.1 < Text.bytes b.1 :=
  Std.TreeMap.ordered_keys_toList.imp fun h => (Text.compare_eq_lt_iff _ _).1 h

/-- Of two switches for the same term, the one that comes first has the lesser key. -/
theorem pairwise_switches (c : Config) :
    c.switches.Pairwise fun a b => a.1.lowered = b.1.lowered → a.1.Before b.1 := by
  rw [switches, List.append_assoc, List.pairwise_append, List.pairwise_append]
  refine ⟨?_, ⟨?_, ?_, ?_⟩, ?_⟩
  · refine List.pairwise_map.2 ((pairwise_bytes_lt c.properties).imp ?_)
    intro a b hab _
    exact hab
  · refine List.pairwise_map.2 ((pairwise_bytes_lt c.atRules).imp ?_)
    intro a b hab _
    exact hab
  · rw [List.pairwise_flatMap]
    constructor
    · intro owned _
      exact List.pairwise_map.2
        ((pairwise_bytes_lt owned.2).imp fun h _ => Or.inr ⟨rfl, h⟩)
    · refine (pairwise_bytes_lt c.descriptors).imp ?_
      intro a b hab x hx y hy _
      obtain ⟨e, -, rfl⟩ := List.mem_map.1 hx
      obtain ⟨e', -, rfl⟩ := List.mem_map.1 hy
      exact Or.inl hab
  · intro a ha b hb hsame
    obtain ⟨e, -, rfl⟩ := List.mem_map.1 ha
    obtain ⟨owned, -, hb⟩ := List.mem_flatMap.1 hb
    obtain ⟨e', -, rfl⟩ := List.mem_map.1 hb
    exact Term.noConfusion hsame
  · intro a ha b hb hsame
    obtain ⟨e, -, rfl⟩ := List.mem_map.1 ha
    rcases List.mem_append.1 hb with hb | hb
    · obtain ⟨e', -, rfl⟩ := List.mem_map.1 hb
      exact Term.noConfusion hsame
    · obtain ⟨owned, -, hb⟩ := List.mem_flatMap.1 hb
      obtain ⟨e', -, rfl⟩ := List.mem_map.1 hb
      exact Term.noConfusion hsame

/-- Of the switches whose keys are spellings of `x`, the last in the order of bytes says `known`. -/
def Decides (c : Config) (x : Term) (known : Bool) : Prop :=
  ∃ key, c.Switch key known ∧ key.lowered = x ∧
    ∀ other flag, c.Switch other flag → other.lowered = x → other = key ∨ other.Before key

theorem verdict?_switches_iff {c : Config} {x : Term} {known : Bool} :
    verdict? x c.switches = some known ↔ c.Decides x known := by
  rw [verdict?_eq_some_iff]
  have hpairwise := c.pairwise_switches
  constructor
  · rintro ⟨before, key, after, hsplit, hkey, hafter⟩
    rw [hsplit, List.pairwise_append] at hpairwise
    refine ⟨key, mem_switches_iff.1 (by simp [hsplit]), hkey, ?_⟩
    intro other flag hother hlowered
    rw [← mem_switches_iff, hsplit, List.mem_append, List.mem_cons] at hother
    rcases hother with hother | hother | hother
    · exact Or.inr (hpairwise.2.2 _ hother _ List.mem_cons_self (hlowered.trans hkey.symm))
    · exact Or.inl (Prod.mk.inj hother).1
    · exact absurd hlowered (hafter _ hother)
  · rintro ⟨key, hswitch, hkey, hlast⟩
    obtain ⟨before, after, hsplit⟩ := List.append_of_mem (mem_switches_iff.2 hswitch)
    rw [hsplit, List.pairwise_append, List.pairwise_cons] at hpairwise
    refine ⟨before, key, after, hsplit, hkey, ?_⟩
    -- a later switch for the same term has a greater key
    intro e he hlowered
    have hbefore := hpairwise.2.1.1 e he (hkey.trans hlowered.symm)
    have hmem : (e.1, e.2) ∈ c.switches := by simp [hsplit, he]
    rcases hlast e.1 e.2 (mem_switches_iff.1 hmem) hlowered with heq | hback
    · rw [heq] at hbefore
      exact hbefore.not_before hbefore
    · exact hbefore.not_before hback

theorem verdict?_switches_eq_none_iff {c : Config} {x : Term} :
    verdict? x c.switches = none ↔ ∀ key known, c.Switch key known → key.lowered ≠ x := by
  rw [verdict?_eq_none_iff]
  constructor
  · intro h key known hswitch
    exact h _ (mem_switches_iff.2 hswitch)
  · intro h e he
    exact h e.1 e.2 (mem_switches_iff.1 he)

end Config

namespace Knowledge

/-- A configuration sets the indentation and then applies its switches. -/
theorem configure_eq (k : Knowledge) (c : Config) :
    k.configure c =
      ({ k with indentation := c.indentation.getD k.indentation } : Knowledge).switchAll
        c.switches := by
  have hproperty (k : Knowledge) (name : String) (known : Bool) :
      k.switchProperty name known = k.switch (.property name) known := by cases known <;> rfl
  have hatRule (k : Knowledge) (name : String) (known : Bool) :
      k.switchAtRule name known = k.switch (.atRule name) known := by cases known <;> rfl
  have hdescriptor (k : Knowledge) (owner name : String) (known : Bool) :
      k.switchDescriptor owner name known = k.switch (.descriptor owner name) known := by
    cases known <;> rfl
  have hswitches (k : Knowledge) :
      c.descriptors.foldl (fun k owner switches => switches.foldl (·.switchDescriptor owner) k)
        (c.atRules.foldl switchAtRule (c.properties.foldl switchProperty k)) =
      k.switchAll c.switches := by
    rw [switchAll, Config.switches, List.foldl_append, List.foldl_append, List.foldl_map,
      List.foldl_map, List.foldl_flatMap]
    simp only [Std.TreeMap.foldl_eq_foldl_toList, List.foldl_map, hproperty, hatRule, hdescriptor]
  rw [configure]
  cases c.indentation with
  | none => exact hswitches k
  | some chars => exact hswitches (k.setIndentation chars)

theorem lists_configure (k : Knowledge) (c : Config) (x : Term) :
    (k.configure c).lists x = (verdict? x c.switches).getD (k.lists x) := by
  rw [configure_eq, lists_switchAll]
  cases x <;> rfl

theorem indentation_configure (k : Knowledge) (c : Config) :
    (k.configure c).indentation = c.indentation.getD k.indentation := by
  rw [configure_eq, indentation_switchAll]

theorem isSome_own?_configure (k : Knowledge) (c : Config) (other : String) :
    ((k.configure c).own? other).isSome =
      ((k.own? other).isSome || c.switches.any fun e => e.2 && e.1.owner? == some other) := by
  rw [configure_eq, isSome_own?_switchAll]
  rfl

/-! ## Knowledge that can come about -/

/-- Knowledge that comes about from nothing or from the built-in vocabulary. -/
inductive Reachable : Knowledge → Prop
  | empty : Reachable .empty
  | builtIn : Reachable .builtIn
  | register {k : Knowledge} (h : Reachable k) (x : Term) : Reachable (k.register x)
  | forget {k : Knowledge} (h : Reachable k) (x : Term) : Reachable (k.forget x)
  | setIndentation {k : Knowledge} (h : Reachable k) (chars : List Char) :
      Reachable (k.setIndentation chars)
  | configure {k : Knowledge} (h : Reachable k) (c : Config) : Reachable (k.configure c)

/-- Every name in the tables is in lower case. -/
structure Lowered (k : Knowledge) : Prop where
  properties : ∀ name ∈ k.properties.names, Text.lower name = name
  atRules : ∀ name ∈ k.atRules.names, Text.lower name = name
  owners : ∀ e ∈ k.descriptors, Text.lower e.1 = e.1
  descriptors : ∀ e ∈ k.descriptors, ∀ name ∈ e.2.names, Text.lower name = name

/-- What can be looked up is in lower case, and no at-rule has two entries. -/
structure Tidy (k : Knowledge) : Prop where
  lists : ∀ x, k.lists x = true → x.lowered = x
  owners : ∀ owner, (k.own? owner).isSome = true → Text.lower owner = owner
  nodup : (k.descriptors.map Prod.fst).Nodup

theorem mem_of_own? {k : Knowledge} {owner : String} {names : NameSet}
    (h : k.own? owner = some names) : (owner, names) ∈ k.descriptors := by
  obtain ⟨before, after, hsplit, -⟩ := List.lookup_eq_some_iff.1 h
  rw [hsplit]
  exact List.mem_append_right _ List.mem_cons_self

theorem lists_descriptor_iff {k : Knowledge} {owner name : String} :
    k.lists (.descriptor owner name) = true ↔
      ∃ names, k.own? owner = some names ∧ names.contains name = true := by
  rw [lists]
  cases k.own? owner with
  | none => exact iff_of_false (fun h => Bool.noConfusion h) (by simp)
  | some names => simp

/-- In lower case as it is written, and so as it is looked up. -/
theorem Lowered.lists {k : Knowledge} (h : k.Lowered) (x : Term) (hx : k.lists x = true) :
    x.lowered = x := by
  cases x with
  | property name =>
    rw [Term.lowered, h.properties name (List.contains_iff_mem.1 hx)]
  | atRule name =>
    rw [Term.lowered, h.atRules name (List.contains_iff_mem.1 hx)]
  | descriptor owner name =>
    obtain ⟨names, hown, hname⟩ := lists_descriptor_iff.1 hx
    have hmem := mem_of_own? hown
    rw [Term.lowered, h.owners _ hmem, h.descriptors _ hmem name (List.contains_iff_mem.1 hname)]

theorem Lowered.own? {k : Knowledge} (h : k.Lowered) (owner : String)
    (howner : (k.own? owner).isSome = true) : Text.lower owner = owner := by
  obtain ⟨names, hown⟩ := Option.isSome_iff_exists.1 howner
  exact h.owners _ (mem_of_own? hown)

namespace Tidy

variable {k k' : Knowledge}

/-- The entries of the at-rules are those that are found by their names. -/
theorem own?_of_mem (h : k.Tidy) {e : String × NameSet} (he : e ∈ k.descriptors) :
    k.own? e.1 = some e.2 := by
  obtain ⟨before, after, hsplit⟩ := List.append_of_mem he
  have hnodup := h.nodup
  rw [hsplit, List.map_append, List.map_cons, List.nodup_append] at hnodup
  refine List.lookup_eq_some_iff.2 ⟨before, after, hsplit, ?_⟩
  intro p hp
  exact bne_iff_ne.2 fun heq =>
    hnodup.2.2 p.1 (List.mem_map_of_mem hp) e.1 List.mem_cons_self heq.symm

theorem nodup_modifyDescriptors (h : k.Tidy) (owner : String) (f : NameSet → NameSet) :
    ((k.modifyDescriptors owner f).descriptors.map Prod.fst).Nodup := by
  rw [modifyDescriptors, List.map_map]
  exact h.nodup

theorem lowered (h : k.Tidy) : k.Lowered where
  properties := by
    intro name hname
    exact Term.property.inj (h.lists (.property name) (List.contains_iff_mem.2 hname))
  atRules := by
    intro name hname
    exact Term.atRule.inj (h.lists (.atRule name) (List.contains_iff_mem.2 hname))
  owners := by
    intro e he
    exact h.owners e.1 (by rw [h.own?_of_mem he]; rfl)
  descriptors := by
    intro e he name hname
    have hlists : k.lists (.descriptor e.1 name) = true :=
      lists_descriptor_iff.2 ⟨e.2, h.own?_of_mem he, List.contains_iff_mem.2 hname⟩
    exact (Term.descriptor.inj (h.lists _ hlists)).2

/-- Two knowledges with the same terms, the same entries and the same indentation are the same. -/
theorem same (h : k.Tidy) (h' : k'.Tidy) (hlists : ∀ x, k.lists x = k'.lists x)
    (hown : ∀ owner, (k.own? owner).isSome = (k'.own? owner).isSome)
    (hindentation : k.indentation = k'.indentation) : k.same k' = true := by
  have hwithin {a b : Knowledge} (ha : a.Tidy) (hlists : ∀ x, a.lists x = b.lists x)
      (hown : ∀ owner, (a.own? owner).isSome = (b.own? owner).isSome) :
      entriesWithin a.descriptors b.descriptors = true := by
    rw [entriesWithin, List.all_eq_true]
    intro e he
    have ha' := ha.own?_of_mem he
    have hsome : (b.own? e.1).isSome = true := by rw [← hown, ha']; rfl
    obtain ⟨other, hother⟩ := Option.isSome_iff_exists.1 hsome
    have hlookup : b.descriptors.lookup e.1 = some other := hother
    simp only [hlookup]
    refine (NameSet.same_iff _ _).2 ?_
    intro name
    have hname := hlists (.descriptor e.1 name)
    rwa [Knowledge.lists, Knowledge.lists, ha', hother] at hname
  simp only [Knowledge.same, Bool.and_eq_true, beq_iff_eq]
  refine ⟨⟨⟨⟨?_, ?_⟩, ?_⟩, ?_⟩, hindentation⟩
  · exact (NameSet.same_iff _ _).2 fun name => hlists (.property name)
  · exact (NameSet.same_iff _ _).2 fun name => hlists (.atRule name)
  · exact hwithin h hlists hown
  · exact hwithin h' (fun x => (hlists x).symm) (fun owner => (hown owner).symm)

end Tidy

theorem tidy_empty : Tidy .empty where
  lists := by
    intro x hx
    cases x <;> exact Bool.noConfusion hx
  owners := by
    intro owner howner
    exact Bool.noConfusion howner
  nodup := List.nodup_nil

end Knowledge

/-! ### The built-in vocabulary -/

namespace Vocabulary

/-! Written as lists of characters, the names are checked one by one without being decoded. -/

theorem lower_properties : ∀ name ∈ properties, Text.lower name = name := by
  unfold properties
  repeat refine List.forall_mem_cons.2 ⟨Text.lower_ofList rfl, ?_⟩
  exact List.forall_mem_nil _

theorem lower_atRules : ∀ name ∈ atRules, Text.lower name = name := by
  unfold atRules
  repeat refine List.forall_mem_cons.2 ⟨Text.lower_ofList rfl, ?_⟩
  exact List.forall_mem_nil _

theorem lower_descriptors :
    ∀ e ∈ descriptors, Text.lower e.1 = e.1 ∧ ∀ name ∈ e.2, Text.lower name = name := by
  unfold descriptors
  repeat' first
    | exact List.forall_mem_nil _
    | refine List.forall_mem_cons.2 ⟨⟨Text.lower_ofList rfl, ?_⟩, ?_⟩
    | refine List.forall_mem_cons.2 ⟨Text.lower_ofList rfl, ?_⟩

end Vocabulary

namespace Knowledge

theorem lowered_builtIn : Lowered .builtIn where
  properties := Vocabulary.lower_properties
  atRules := Vocabulary.lower_atRules
  owners := by
    intro e he
    obtain ⟨e', he', rfl⟩ := List.mem_map.1 he
    exact (Vocabulary.lower_descriptors e' he').1
  descriptors := by
    intro e he
    obtain ⟨e', he', rfl⟩ := List.mem_map.1 he
    exact (Vocabulary.lower_descriptors e' he').2

theorem tidy_builtIn : Tidy .builtIn where
  lists := lowered_builtIn.lists
  owners := lowered_builtIn.own?
  nodup := by decide +kernel

theorem Tidy.switch {k : Knowledge} (h : k.Tidy) (x : Term) (known : Bool) :
    (k.switch x known).Tidy where
  lists := by
    intro y hy
    rw [lists_switch] at hy
    split at hy
    · next hxy => rw [← hxy, Term.lowered_lowered]
    · exact h.lists y hy
  owners := by
    intro owner howner
    rw [isSome_own?_switch, Bool.or_eq_true, Bool.and_eq_true] at howner
    rcases howner with howner | ⟨-, howner⟩
    · exact h.owners owner howner
    · exact Term.lower_owner (eq_of_beq howner)
  nodup := by
    cases x with
    | descriptor owner name =>
      cases known with
      | true =>
        show ((k.addDescriptor owner name).descriptors.map Prod.fst).Nodup
        rw [addDescriptor]
        split
        · exact h.nodup_modifyDescriptors _ _
        · next hnone =>
          -- the new key is not yet there
          rw [List.map_append, List.nodup_append]
          refine ⟨h.nodup, List.pairwise_singleton _ _, ?_⟩
          intro key hkey key' hkey' heq
          obtain rfl := List.mem_singleton.1 hkey'
          obtain ⟨e, he, rfl⟩ := List.mem_map.1 hkey
          exact hnone (List.lookup_isSome_iff.2 ⟨e, he, beq_iff_eq.2 heq.symm⟩)
      | false =>
        show ((k.removeDescriptor owner name).descriptors.map Prod.fst).Nodup
        exact h.nodup_modifyDescriptors _ _
    | _ => cases known <;> exact h.nodup

theorem Tidy.switchAll {k : Knowledge} (h : k.Tidy) (switches : List (Term × Bool)) :
    (k.switchAll switches).Tidy := by
  induction switches generalizing k with
  | nil => exact h
  | cons e switches ih => exact ih (h.switch e.1 e.2)

theorem Tidy.setIndentation {k : Knowledge} (h : k.Tidy) (chars : List Char) :
    (k.setIndentation chars).Tidy where
  lists := by
    intro x hx
    refine h.lists x ?_
    cases x <;> exact hx
  owners := h.owners
  nodup := h.nodup

theorem Tidy.configure {k : Knowledge} (h : k.Tidy) (c : Config) : (k.configure c).Tidy := by
  rw [configure_eq]
  exact (h.setIndentation _).switchAll _

theorem Reachable.tidy {k : Knowledge} (h : Reachable k) : k.Tidy := by
  induction h with
  | empty => exact tidy_empty
  | builtIn => exact tidy_builtIn
  | register _ x ih => exact ih.switch x true
  | forget _ x ih => exact ih.switch x false
  | setIndentation _ chars ih => exact ih.setIndentation chars
  | configure _ c ih => exact ih.configure c

/-! ## Letter case -/

theorem lookupNames_congr {name name' : String} (h : Text.lower name = Text.lower name') :
    lookupNames name = lookupNames name' := by
  rw [lookupNames, lookupNames, h]

theorem descriptorsOf?_congr (k : Knowledge) {owner owner' : String}
    (h : Text.lower owner = Text.lower owner') : k.descriptorsOf? owner = k.descriptorsOf? owner' := by
  rw [descriptorsOf?, descriptorsOf?, lookupNames_congr h]

/-- Terms that differ in letter case alone are known together. -/
theorem knows_congr (k : Knowledge) {x y : Term} (h : x.lowered = y.lowered) :
    k.knows x = k.knows y := by
  cases x with
  | property name =>
    cases y with
    | property name' =>
      rw [knows, knows, hasProperty, hasProperty, lookupNames_congr (Term.property.inj h)]
    | _ => exact Term.noConfusion h
  | atRule name =>
    cases y with
    | atRule name' =>
      rw [knows, knows, hasAtRule, hasAtRule, lookupNames_congr (Term.atRule.inj h)]
    | _ => exact Term.noConfusion h
  | descriptor owner name =>
    cases y with
    | descriptor owner' name' =>
      obtain ⟨howner, hname⟩ := Term.descriptor.inj h
      rw [knows, knows, hasDescriptor, hasDescriptor, descriptorsOf?_congr k howner,
        lookupNames_congr hname]
    | _ => exact Term.noConfusion h

/-! ## The meaning of a configuration -/

/-- After a configuration a term is listed as the last of the switches for it says, in the order of
the bytes of their keys, and as before when there is no switch for it. The indentation is that of
the configuration if it has one. Applied again, the configuration changes nothing. All names are in
lower case, and looking up does not depend on letter case. -/
theorem configure_iff {k : Knowledge} (hk : Reachable k) (c : Config) :
    (∀ (x : Term) (known : Bool), (k.configure c).lists x = known ↔
      c.Decides x known ∨ (∀ key flag, c.Switch key flag → key.lowered ≠ x) ∧ k.lists x = known) ∧
    (k.configure c).indentation = c.indentation.getD k.indentation ∧
    ((k.configure c).configure c).same (k.configure c) = true ∧
    (k.configure c).Lowered ∧
    (∀ x y : Term, x.lowered = y.lowered → (k.configure c).knows x = (k.configure c).knows y) ∧
    ∀ owner owner', Text.lower owner = Text.lower owner' →
      (k.configure c).hasDescriptors owner = (k.configure c).hasDescriptors owner' := by
  have htidy := hk.tidy.configure c
  refine ⟨?_, k.indentation_configure c, ?_, htidy.lowered, ?_, ?_⟩
  · intro x known
    rw [lists_configure, ← Config.verdict?_switches_iff, ← Config.verdict?_switches_eq_none_iff]
    cases verdict? x c.switches <;> simp
  · refine (htidy.configure c).same htidy ?_ ?_ ?_
    · intro x
      rw [lists_configure, lists_configure]
      cases verdict? x c.switches <;> rfl
    · intro owner
      rw [isSome_own?_configure, isSome_own?_configure, Bool.or_assoc, Bool.or_self]
    · rw [indentation_configure, indentation_configure]
      cases c.indentation <;> rfl
  · intro x y hxy
    exact knows_congr _ hxy
  · intro owner owner' howner
    rw [hasDescriptors, hasDescriptors, descriptorsOf?_congr _ howner]

/-- Of two spellings of a name the one in small letters comes later, and it decides. -/
theorem configure_iff_spellings :
    let c : Config := { properties := (({} : Switches).insert "color" false).insert "COLOR" true }
    Reachable .builtIn ∧ c.Decides (.property "color") false ∧
      (builtIn.configure c).lists (.property "color") = false ∧
      ((builtIn.configure c).configure c).same (builtIn.configure c) = true := by
  intro c
  have hswitches : c.switches = [(.property "COLOR", true), (.property "color", false)] := by
    decide +kernel
  have hdecides : c.Decides (.property "color") false := by
    refine ⟨.property "color", ?_, by decide +kernel, ?_⟩
    · rw [← Config.mem_switches_iff, hswitches]
      decide
    · intro other flag hother _
      rw [← Config.mem_switches_iff, hswitches] at hother
      rcases List.mem_cons.1 hother with hother | hother
      · obtain ⟨rfl, -⟩ := Prod.mk.inj hother
        exact Or.inr (by show Text.bytes _ < Text.bytes _; decide +kernel)
      · obtain ⟨rfl, -⟩ := Prod.mk.inj (List.mem_singleton.1 hother)
        exact Or.inl rfl
  obtain ⟨hlists, -, hsame, -⟩ := configure_iff .builtIn c
  exact ⟨.builtIn, hdecides, (hlists _ _).2 (Or.inl hdecides), hsame⟩

end Knowledge

end Stylesheet
