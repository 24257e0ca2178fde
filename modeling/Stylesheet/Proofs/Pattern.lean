import Mathlib.Tactic.Common
import Stylesheet.Pattern

set_option autoImplicit false

/-! # The texts of a pattern

What it means to follow a pattern, for each way to build one: a text of the pattern is put together
from texts of its parts. For a pattern of which a text has at most one beginning, the shortest
beginning is the only one (`Pattern.restAfter?_eq_some_iff`). -/

namespace Stylesheet.Pattern

variable {a b : Pattern} {set : CharClass} {s : List Char}

/-! ## One step of building -/

theorem matches_empty_iff : Matches empty s ↔ s = [] := by
  constructor
  · rintro ⟨⟩
    rfl
  · rintro rfl
    exact .empty

theorem matches_char_iff : Matches (char set) s ↔ ∃ c, set.contains c = true ∧ s = [c] := by
  constructor
  · rintro ⟨⟩
    exact ⟨_, ‹_›, rfl⟩
  · rintro ⟨c, hc, rfl⟩
    exact .char hc

theorem matches_seq_iff : Matches (seq a b) s ↔ ∃ u v, s = u ++ v ∧ Matches a u ∧ Matches b v := by
  constructor
  · rintro ⟨⟩
    exact ⟨_, _, rfl, ‹_›, ‹_›⟩
  · rintro ⟨u, v, rfl, hu, hv⟩
    exact .seq hu hv

theorem matches_alt_iff : Matches (alt a b) s ↔ Matches a s ∨ Matches b s := by
  constructor
  · intro h
    cases h with
    | altLeft h => exact Or.inl h
    | altRight h => exact Or.inr h
  · rintro (h | h)
    · exact .altLeft h
    · exact .altRight h

theorem matches_star_iff :
    Matches (star a) s ↔
      ∃ parts : List (List Char), s = parts.flatten ∧ ∀ u ∈ parts, Matches a u := by
  constructor
  · intro h
    generalize hp : star a = p at h
    induction h with
    | starNil => exact ⟨[], rfl, by simp⟩
    | @starCons a' u v hu _ _ ihv =>
      cases hp
      obtain ⟨parts, rfl, hparts⟩ := ihv rfl
      exact ⟨u :: parts, rfl, List.forall_mem_cons.2 ⟨hu, hparts⟩⟩
    | empty | char | seq | altLeft | altRight => cases hp
  · rintro ⟨parts, rfl, hparts⟩
    induction parts with
    | nil => exact .starNil
    | cons u parts ih =>
      rw [List.forall_mem_cons] at hparts
      exact .starCons hparts.1 (ih hparts.2)

/-! ## Patterns built from others -/

theorem matches_optional_iff : Matches (optional a) s ↔ s = [] ∨ Matches a s := by
  rw [optional, matches_alt_iff, matches_empty_iff, or_comm]

theorem matches_all_nil_iff : Matches (all []) s ↔ s = [] := matches_empty_iff

theorem matches_all_cons_iff {patterns : List Pattern} :
    Matches (all (a :: patterns)) s ↔
      ∃ u v, s = u ++ v ∧ Matches a u ∧ Matches (all patterns) v :=
  matches_seq_iff

theorem matches_literal_iff {text : String} : Matches (literal text) s ↔ s = text.toList := by
  rw [literal]
  generalize text.toList = cs
  induction cs generalizing s with
  | nil => exact matches_empty_iff
  | cons c cs ih =>
    rw [List.foldr_cons, matches_seq_iff]
    constructor
    · rintro ⟨u, v, rfl, hu, hv⟩
      obtain ⟨d, hd, rfl⟩ := matches_char_iff.1 hu
      rw [List.mem_singleton.1 (List.contains_iff_mem.1 hd), ih.1 hv]
      rfl
    · rintro rfl
      exact ⟨[c], cs, rfl, .char (by simp [CharClass.contains]), ih.2 rfl⟩

/-- Any number of characters of a class. -/
theorem matches_star_char_iff : Matches (star (char set)) s ↔ ∀ c ∈ s, set.contains c = true := by
  induction s with
  | nil => simp [Matches.starNil]
  | cons c s ih =>
    rw [List.forall_mem_cons, ← ih]
    constructor
    · intro h
      obtain ⟨u, v, rfl, hu, hv⟩ := exists_of_matches_star h
      obtain ⟨d, hd, hcu⟩ := matches_char_iff.1 hu
      obtain ⟨rfl, rfl⟩ := List.cons.inj hcu
      exact ⟨hd, hv⟩
    · rintro ⟨hc, hs⟩
      exact .starCons (.char hc) hs

theorem matches_seq_char_iff {patterns : Pattern} :
    Matches (seq (char set) patterns) s ↔
      ∃ c rest, s = c :: rest ∧ set.contains c = true ∧ Matches patterns rest := by
  rw [matches_seq_iff]
  constructor
  · rintro ⟨u, v, rfl, hu, hv⟩
    obtain ⟨c, hc, rfl⟩ := matches_char_iff.1 hu
    exact ⟨c, v, rfl, hc, hv⟩
  · rintro ⟨c, rest, rfl, hc, hrest⟩
    exact ⟨[c], rest, rfl, .char hc, hrest⟩

/-- At least one character of a class. -/
theorem matches_plus_char_iff :
    Matches (plus (char set)) s ↔ s ≠ [] ∧ ∀ c ∈ s, set.contains c = true := by
  rw [plus, matches_seq_char_iff]
  constructor
  · rintro ⟨c, rest, rfl, hc, hrest⟩
    exact ⟨List.cons_ne_nil _ _, List.forall_mem_cons.2 ⟨hc, matches_star_char_iff.1 hrest⟩⟩
  · rintro ⟨hne, hall⟩
    obtain ⟨c, rest, rfl⟩ := List.exists_cons_of_ne_nil hne
    rw [List.forall_mem_cons] at hall
    exact ⟨c, rest, rfl, hall.1, matches_star_char_iff.2 hall.2⟩

/-- Items one after the other. -/
def Repeated (item : List Char → Prop) (s : List Char) : Prop :=
  ∃ parts : List (List Char), s = parts.flatten ∧ ∀ part ∈ parts, item part

theorem matches_star_iff_repeated {item : List Char → Prop} (ha : ∀ s, Matches a s ↔ item s) :
    Matches (star a) s ↔ Repeated item s := by
  rw [matches_star_iff, Repeated]
  simp only [ha]

/-- At least one item, when no item is the empty text. -/
theorem matches_plus_iff_repeated {item : List Char → Prop} (ha : ∀ s, Matches a s ↔ item s)
    (hne : ¬ item []) : Matches (plus a) s ↔ s ≠ [] ∧ Repeated item s := by
  rw [plus, matches_seq_iff]
  constructor
  · rintro ⟨u, v, rfl, hu, hv⟩
    obtain ⟨parts, rfl, hparts⟩ := (matches_star_iff_repeated ha).1 hv
    rw [ha] at hu
    refine ⟨fun h => hne ((List.append_eq_nil_iff.1 h).1 ▸ hu), u :: parts, rfl, ?_⟩
    exact List.forall_mem_cons.2 ⟨hu, hparts⟩
  · rintro ⟨hs, parts, rfl, hparts⟩
    cases parts with
    | nil => exact absurd rfl hs
    | cons part parts =>
      rw [List.forall_mem_cons, ← ha] at hparts
      exact ⟨part, _, rfl, hparts.1, (matches_star_iff_repeated ha).2 ⟨parts, rfl, hparts.2⟩⟩

/-- Items one after the other, with a separator between any two. -/
inductive Listed (separator item : List Char → Prop) : List Char → Prop where
  | single {s : List Char} : item s → Listed separator item s
  | cons {s t u : List Char} :
      item s → separator t → Listed separator item u → Listed separator item (s ++ t ++ u)

theorem matches_separated_iff {separator item : List Char → Prop}
    (ha : ∀ s, Matches a s ↔ separator s) (hb : ∀ s, Matches b s ↔ item s) :
    Matches (separated a b) s ↔ Listed separator item s := by
  rw [separated, matches_seq_iff]
  constructor
  · rintro ⟨first, rest, rfl, hfirst, hrest⟩
    obtain ⟨parts, rfl, hparts⟩ := matches_star_iff.1 hrest
    clear hrest
    induction parts generalizing first with
    | nil => exact .single (by simpa using (hb _).1 hfirst)
    | cons part parts ih =>
      rw [List.forall_mem_cons, matches_seq_iff] at hparts
      obtain ⟨⟨t, next, rfl, ht, hnext⟩, hparts⟩ := hparts
      have hlisted := Listed.cons ((hb _).1 hfirst) ((ha _).1 ht) (ih next hnext hparts)
      simpa using hlisted
  · intro h
    induction h with
    | single hs => exact ⟨_, [], (List.append_nil _).symm, (hb _).2 hs, .starNil⟩
    | @cons s t u hs ht _ ih =>
      obtain ⟨first, rest, rfl, hfirst, hrest⟩ := ih
      refine ⟨s, t ++ first ++ rest, by simp, (hb _).2 hs, ?_⟩
      exact .starCons (.seq ((ha _).2 ht) hfirst) hrest

/-! ## What is left of a text -/

theorem any_nullable_iff {patterns : List Pattern} :
    patterns.any nullable = true ↔ ∃ p ∈ patterns, Matches p [] :=
  any_nullable_foldl_step_iff patterns []

theorem exists_of_restAfterAny?_eq_some {patterns : List Pattern} {cs rest : List Char}
    (h : restAfterAny? patterns cs = some rest) :
    ∃ front, cs = front ++ rest ∧ ∃ p ∈ patterns, Matches p front := by
  induction cs generalizing patterns with
  | nil =>
    rw [restAfterAny?] at h
    split at h
    · next hany => exact ⟨[], Option.some.inj h, any_nullable_iff.1 hany⟩
    · cases h
  | cons c cs ih =>
    rw [restAfterAny?] at h
    split at h
    · next hany => exact ⟨[], Option.some.inj h, any_nullable_iff.1 hany⟩
    · obtain ⟨front, rfl, hfront⟩ := ih h
      exact ⟨c :: front, rfl, (exists_mem_step_iff patterns c front).1 hfront⟩

theorem restAfterAny?_ne_none {patterns : List Pattern} {p : Pattern} (hp : p ∈ patterns)
    {front : List Char} (h : Matches p front) (rest : List Char) :
    restAfterAny? patterns (front ++ rest) ≠ none := by
  induction front generalizing patterns p with
  | nil =>
    have hany : patterns.any nullable = true := any_nullable_iff.2 ⟨p, hp, h⟩
    cases rest <;> simp [restAfterAny?, hany]
  | cons c front ih =>
    obtain ⟨q, hq, hfront⟩ := (exists_mem_step_iff patterns c front).2 ⟨p, hp, h⟩
    rw [List.cons_append, restAfterAny?]
    split
    · simp
    · exact ih hq hfront

/-- Where such a text ends can be read off it: a text has at most one of them at its beginning. -/
def Delimited (is : List Char → Prop) : Prop :=
  ∀ ⦃u v r t⦄, is u → is v → u ++ r = v ++ t → u = v ∧ r = t

/-- What is left behind a delimited beginning is what the search stops at. -/
theorem restAfter?_eq_some_iff {p : Pattern} (hp : Delimited (Matches p)) {cs rest : List Char} :
    p.restAfter? cs = some rest ↔ ∃ front, cs = front ++ rest ∧ Matches p front := by
  have hfound {rest : List Char} (h : p.restAfter? cs = some rest) :
      ∃ front, cs = front ++ rest ∧ Matches p front := by
    obtain ⟨front, hcs, q, hq, hfront⟩ := exists_of_restAfterAny?_eq_some h
    exact ⟨front, hcs, List.mem_singleton.1 hq ▸ hfront⟩
  refine ⟨hfound, ?_⟩
  rintro ⟨front, rfl, hfront⟩
  cases hrest : p.restAfter? (front ++ rest) with
  | none => exact absurd hrest (restAfterAny?_ne_none (List.mem_singleton_self p) hfront rest)
  | some rest' =>
    obtain ⟨front', hcs, hfront'⟩ := hfound hrest
    rw [(hp hfront hfront' hcs).2]

end Stylesheet.Pattern
