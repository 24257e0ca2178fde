import Stylesheet.Text.Blank
import Stylesheet.Text.WordChar

set_option autoImplicit false

/-! # Patterns

A pattern is a regular grammar given as data. `Pattern.Matches` is what it means for a text to
follow a pattern, and `Pattern.accepts` decides it by partial derivatives: after a character, a
pattern leaves a list of patterns of which the rest of the text has to follow one. Main statement:
`accepts_iff_matches`. -/

namespace Stylesheet

/-- A set of characters, as data. -/
inductive CharClass where
  | oneOf (chars : List Char)
  /-- The letters `A-Z` and `a-z`. -/
  | letter
  | word
  | blank
  | either (a b : CharClass)
  | outside (a : CharClass)
deriving DecidableEq, Repr

def CharClass.contains : CharClass → Char → Bool
  | oneOf chars, c => chars.contains c
  | letter, c => Text.isAsciiLetter c
  | word, c => Text.isWord c
  | blank, c => Text.isBlank c
  | either a b, c => a.contains c || b.contains c
  | outside a, c => !a.contains c

inductive Pattern where
  /-- The empty text. -/
  | empty
  /-- One character of a class. -/
  | char (set : CharClass)
  | seq (a b : Pattern)
  | alt (a b : Pattern)
  /-- Any number of texts, one after the other. -/
  | star (a : Pattern)
deriving DecidableEq, Repr

namespace Pattern

/-! ## Building patterns -/

def literal (text : String) : Pattern :=
  text.toList.foldr (fun c rest => seq (char (.oneOf [c])) rest) empty

def optional (a : Pattern) : Pattern := alt a empty

/-- At least one text, one after the other. -/
def plus (a : Pattern) : Pattern := seq a (star a)

/-- The patterns one after the other. -/
def all (patterns : List Pattern) : Pattern := patterns.foldr seq empty

/-- At least one text of `item`, with a text of `separator` between any two. -/
def separated (separator item : Pattern) : Pattern := seq item (star (seq separator item))

/-! ## Meaning -/

/-- The text follows the pattern. -/
inductive Matches : Pattern → List Char → Prop where
  | empty : Matches empty []
  | char {set : CharClass} {c : Char} : set.contains c = true → Matches (char set) [c]
  | seq {a b : Pattern} {s t : List Char} : Matches a s → Matches b t → Matches (seq a b) (s ++ t)
  | altLeft {a b : Pattern} {s : List Char} : Matches a s → Matches (alt a b) s
  | altRight {a b : Pattern} {s : List Char} : Matches b s → Matches (alt a b) s
  | starNil {a : Pattern} : Matches (star a) []
  | starCons {a : Pattern} {s t : List Char} :
      Matches a s → Matches (star a) t → Matches (star a) (s ++ t)

/-! ## Deciding -/

/-- The empty text follows the pattern. -/
def nullable : Pattern → Bool
  | empty => true
  | char _ => false
  | seq a b => a.nullable && b.nullable
  | alt a b => a.nullable || b.nullable
  | star _ => true

/-- `a` and then `b`. -/
def andThen (a b : Pattern) : Pattern := if a = empty then b else seq a b

/-- What may follow the character `c` at the beginning of a text of the pattern. -/
def after (c : Char) : Pattern → List Pattern
  | empty => []
  | char set => if set.contains c then [empty] else []
  | seq a b => (a.after c).map (·.andThen b) ++ if a.nullable then b.after c else []
  | alt a b => a.after c ++ b.after c
  | star a => (a.after c).map (·.andThen (star a))

/-- What may follow the character `c` at the beginning of a text of any of the patterns. -/
def step (patterns : List Pattern) (c : Char) : List Pattern :=
  (patterns.flatMap (after c)).eraseDups

/-- The text follows the pattern. -/
def accepts (p : Pattern) (cs : List Char) : Bool := (cs.foldl step [p]).any nullable

/-- What is left after the shortest beginning of the text that follows one of the patterns. -/
def restAfterAny? (patterns : List Pattern) : List Char → Option (List Char)
  | [] => if patterns.any nullable then some [] else none
  | c :: cs =>
    if patterns.any nullable then some (c :: cs) else restAfterAny? (step patterns c) cs

/-- What is left after the shortest beginning of the text that follows the pattern. -/
def restAfter? (p : Pattern) (cs : List Char) : Option (List Char) := restAfterAny? [p] cs

/-! ## The decision is right -/

theorem nullable_iff_matches (p : Pattern) : p.nullable = true ↔ Matches p [] := by
  induction p with
  | empty => simp [nullable, Matches.empty]
  | char set =>
    simp only [nullable, Bool.false_eq_true, false_iff]
    intro h
    cases h
  | seq a b iha ihb =>
    simp only [nullable, Bool.and_eq_true, iha, ihb]
    constructor
    · rintro ⟨ha, hb⟩
      exact .seq ha hb
    · intro h
      generalize hs : ([] : List Char) = s at h
      cases h with
      | seq ha hb =>
        obtain ⟨rfl, rfl⟩ := List.append_eq_nil_iff.1 hs.symm
        exact ⟨ha, hb⟩
  | alt a b iha ihb =>
    simp only [nullable, Bool.or_eq_true, iha, ihb]
    constructor
    · rintro (h | h)
      · exact .altLeft h
      · exact .altRight h
    · intro h
      cases h with
      | altLeft h => exact .inl h
      | altRight h => exact .inr h
  | star a _ => simp [nullable, Matches.starNil]

theorem matches_andThen_iff (a b : Pattern) (s : List Char) :
    Matches (a.andThen b) s ↔ Matches (seq a b) s := by
  unfold andThen
  split
  · next h =>
    subst h
    constructor
    · intro hb
      simpa using Matches.seq .empty hb
    · intro h
      cases h with
      | seq ha hb =>
        cases ha
        simpa using hb
  · exact Iff.rfl

/-- A text of a repetition that is not empty begins with a text of the repeated pattern that is
not empty. -/
theorem exists_of_matches_star {a : Pattern} {c : Char} {s : List Char}
    (h : Matches (star a) (c :: s)) :
    ∃ u v, s = u ++ v ∧ Matches a (c :: u) ∧ Matches (star a) v := by
  generalize hp : star a = p at h
  generalize ht : c :: s = t at h
  induction h with
  | starNil => cases ht
  | @starCons a' u v hu hv _ ihv =>
    cases hp
    cases u with
    | nil => exact ihv rfl ht
    | cons d u =>
      simp only [List.cons_append, List.cons.injEq] at ht
      obtain ⟨rfl, rfl⟩ := ht
      exact ⟨u, v, rfl, hu, hv⟩
  | empty | char | seq | altLeft | altRight => cases hp

/-- A text with a first character follows a pattern exactly when the rest follows something the
pattern leaves after that character. -/
theorem matches_cons_iff (p : Pattern) (c : Char) (s : List Char) :
    Matches p (c :: s) ↔ ∃ q ∈ p.after c, Matches q s := by
  induction p generalizing s with
  | empty =>
    simp only [after, List.not_mem_nil, false_and, exists_false, iff_false]
    intro h
    cases h
  | char set =>
    constructor
    · intro h
      cases h with
      | char hc => exact ⟨empty, by simp [after, hc], .empty⟩
    · rintro ⟨q, hq, hs⟩
      simp only [after] at hq
      split at hq
      · next hc =>
        rw [List.mem_singleton] at hq
        subst hq
        cases hs
        exact .char hc
      · cases hq
  | seq a b iha ihb =>
    simp only [after, List.mem_append, List.mem_map]
    constructor
    · intro h
      generalize ht : c :: s = t at h
      cases h with
      | @seq _ _ u v hu hv =>
        cases u with
        | nil =>
          rw [List.nil_append] at ht
          subst ht
          obtain ⟨q, hq, hs⟩ := (ihb s).1 hv
          refine ⟨q, .inr ?_, hs⟩
          rw [if_pos ((nullable_iff_matches a).2 hu)]
          exact hq
        | cons d u =>
          simp only [List.cons_append, List.cons.injEq] at ht
          obtain ⟨rfl, rfl⟩ := ht
          obtain ⟨q, hq, hs⟩ := (iha u).1 hu
          exact ⟨_, .inl ⟨q, hq, rfl⟩, (matches_andThen_iff q b _).2 (.seq hs hv)⟩
    · rintro ⟨q, ⟨r, hr, rfl⟩ | hq, hs⟩
      · have hseq := (matches_andThen_iff r b s).1 hs
        cases hseq with
        | seq hu hv => exact .seq ((iha _).2 ⟨r, hr, hu⟩) hv
      · split at hq
        · next hn => exact .seq ((nullable_iff_matches a).1 hn) ((ihb s).2 ⟨q, hq, hs⟩)
        · cases hq
  | alt a b iha ihb =>
    simp only [after, List.mem_append]
    constructor
    · intro h
      cases h with
      | altLeft h =>
        obtain ⟨q, hq, hs⟩ := (iha s).1 h
        exact ⟨q, .inl hq, hs⟩
      | altRight h =>
        obtain ⟨q, hq, hs⟩ := (ihb s).1 h
        exact ⟨q, .inr hq, hs⟩
    · rintro ⟨q, hq | hq, hs⟩
      · exact .altLeft ((iha s).2 ⟨q, hq, hs⟩)
      · exact .altRight ((ihb s).2 ⟨q, hq, hs⟩)
  | star a iha =>
    simp only [after, List.mem_map]
    constructor
    · intro h
      obtain ⟨u, v, rfl, hu, hv⟩ := exists_of_matches_star h
      obtain ⟨q, hq, hs⟩ := (iha u).1 hu
      exact ⟨_, ⟨q, hq, rfl⟩, (matches_andThen_iff q _ _).2 (.seq hs hv)⟩
    · rintro ⟨q, ⟨r, hr, rfl⟩, hs⟩
      have hseq := (matches_andThen_iff r _ s).1 hs
      cases hseq with
      | seq hu hv => exact .starCons ((iha _).2 ⟨r, hr, hu⟩) hv

theorem exists_mem_step_iff (patterns : List Pattern) (c : Char) (s : List Char) :
    (∃ q ∈ step patterns c, Matches q s) ↔ ∃ p ∈ patterns, Matches p (c :: s) := by
  simp only [step, List.mem_eraseDups, List.mem_flatMap, matches_cons_iff]
  constructor
  · rintro ⟨q, ⟨p, hp, hq⟩, hs⟩
    exact ⟨p, hp, q, hq, hs⟩
  · rintro ⟨p, hp, q, hq, hs⟩
    exact ⟨q, ⟨p, hp, hq⟩, hs⟩

theorem any_nullable_foldl_step_iff (patterns : List Pattern) (cs : List Char) :
    (cs.foldl step patterns).any nullable = true ↔ ∃ p ∈ patterns, Matches p cs := by
  induction cs generalizing patterns with
  | nil => simp [nullable_iff_matches]
  | cons c cs ih => rw [List.foldl_cons, ih, exists_mem_step_iff]

/-- A text is accepted exactly when it follows the pattern. -/
theorem accepts_iff_matches (p : Pattern) (cs : List Char) :
    p.accepts cs = true ↔ Matches p cs := by
  rw [accepts, any_nullable_foldl_step_iff]
  simp

end Pattern

end Stylesheet
