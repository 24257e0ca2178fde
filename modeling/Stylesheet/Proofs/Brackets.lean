import Mathlib.Data.List.Induction
import Mathlib.Data.List.Infix

set_option autoImplicit false

/-! # Brackets

How deep a text is nested in brackets of one kind is a matter of counting (`nestingDepth`). Which of
its opening brackets are left open is a matter of what stands after each of them: a text `Rises` by
`n` when it closes nothing that was opened before it and leaves `n` brackets of its own open. An
opening bracket with such a text after it is never closed, and the next bracket to be closed is the
one whose text rises by nothing. Counting from the left and looking to the right agree: the depth at
the end is the number of brackets that nothing closes (`nestingDepth_eq_unclosed`). -/

namespace Stylesheet.Text

/-- The depth after one more character; it does not go below zero. -/
def nest (opening closing : Char) (depth : Nat) (c : Char) : Nat :=
  if c = opening then depth + 1 else if c = closing then depth - 1 else depth

/-- How many brackets are open at the end of the text, counted from the left. -/
def nestingDepth (opening closing : Char) (cs : List Char) : Nat :=
  cs.foldl (nest opening closing) 0

/-- No beginning of the text has more closing brackets than opening ones, and the whole text has
`excess` fewer. -/
structure Rises (opening closing : Char) (excess : Nat) (cs : List Char) : Prop where
  never_below : ∀ front, front <+: cs → front.count closing ≤ front.count opening
  count_eq : cs.count opening = cs.count closing + excess

section Brackets

variable {opening closing : Char} {excess : Nat} {cs : List Char}

@[simp] theorem nestingDepth_nil : nestingDepth opening closing [] = 0 := rfl

@[simp] theorem nestingDepth_concat (cs : List Char) (c : Char) :
    nestingDepth opening closing (cs ++ [c]) =
      nest opening closing (nestingDepth opening closing cs) c := by
  simp [nestingDepth]

/-! ## One more character -/

theorem rises_nil : Rises opening closing 0 [] where
  never_below := by
    intro front hfront
    rw [List.prefix_nil.1 hfront]
    exact le_refl _
  count_eq := rfl

/-- Beginnings of a longer text are those of the text and the longer text itself. -/
theorem rises_concat_iff {c : Char} :
    Rises opening closing excess (cs ++ [c]) ↔
      (∀ front, front <+: cs → front.count closing ≤ front.count opening) ∧
        (cs ++ [c]).count opening = (cs ++ [c]).count closing + excess := by
  constructor
  · intro h
    exact ⟨fun front hfront => h.never_below front (hfront.trans (List.prefix_append _ _)),
      h.count_eq⟩
  · rintro ⟨hbelow, hcount⟩
    refine ⟨?_, hcount⟩
    intro front hfront
    rcases List.prefix_concat_iff.1 hfront with rfl | hfront
    · omega
    · exact hbelow front hfront

theorem rises_concat_of_ne {c : Char} (hopening : c ≠ opening) (hclosing : c ≠ closing) :
    Rises opening closing excess (cs ++ [c]) ↔ Rises opening closing excess cs := by
  rw [rises_concat_iff, List.count_append, List.count_append, List.count_singleton,
    List.count_singleton, beq_false_of_ne hopening, beq_false_of_ne hclosing]
  exact ⟨fun h => ⟨h.1, by simpa using h.2⟩, fun h => ⟨h.1, by simpa using h.2⟩⟩

/-- An opening bracket is one more to be closed. -/
theorem rises_concat_opening (hne : opening ≠ closing) :
    Rises opening closing (excess + 1) (cs ++ [opening]) ↔ Rises opening closing excess cs := by
  rw [rises_concat_iff, List.count_append, List.count_append, List.count_singleton_self,
    List.count_singleton, beq_false_of_ne hne]
  constructor
  · rintro ⟨hbelow, hcount⟩
    exact ⟨hbelow, by simp at hcount; omega⟩
  · intro h
    exact ⟨h.1, by simp [h.count_eq]; omega⟩

/-- After an opening bracket something is open. -/
theorem not_rises_concat_opening (hne : opening ≠ closing) :
    ¬ Rises opening closing 0 (cs ++ [opening]) := by
  rw [rises_concat_iff, List.count_append, List.count_append, List.count_singleton_self,
    List.count_singleton, beq_false_of_ne hne]
  rintro ⟨hbelow, hcount⟩
  have hle := hbelow cs (List.prefix_refl _)
  simp at hcount
  omega

/-- A closing bracket takes one of those that are open. -/
theorem rises_concat_closing (hne : opening ≠ closing) :
    Rises opening closing excess (cs ++ [closing]) ↔ Rises opening closing (excess + 1) cs := by
  rw [rises_concat_iff, List.count_append, List.count_append, List.count_singleton_self,
    List.count_singleton, beq_false_of_ne hne.symm]
  constructor
  · rintro ⟨hbelow, hcount⟩
    exact ⟨hbelow, by simp at hcount; omega⟩
  · intro h
    exact ⟨h.1, by simp [h.count_eq]; omega⟩

/-- What does not close anything does not do so before its end. -/
theorem Rises.of_isPrefix {front : List Char} (h : Rises opening closing excess cs)
    (hfront : front <+: cs) : ∃ n, Rises opening closing n front := by
  have hle := h.never_below front hfront
  refine ⟨front.count opening - front.count closing, ?_, by omega⟩
  intro more hmore
  exact h.never_below more (hmore.trans hfront)

end Brackets

/-! ## Brackets that nothing closes -/

/-- Nothing that was opened before the text is closed in it. -/
def closesNothing (opening closing : Char) (cs : List Char) : Bool :=
  cs.inits.all fun front => front.count closing ≤ front.count opening

/-- The number of opening brackets that nothing after them closes. -/
def unclosed (opening closing : Char) : List Char → Nat
  | [] => 0
  | c :: cs =>
    (if c = opening ∧ closesNothing opening closing cs then 1 else 0) + unclosed opening closing cs

/-- How many brackets that were opened before the text are closed in it. -/
def closed (opening closing : Char) : List Char → Nat
  | [] => 0
  | c :: cs =>
    if c = opening then closed opening closing cs - 1
    else if c = closing then closed opening closing cs + 1
    else closed opening closing cs

section Unclosed

variable {opening closing : Char}

/-- The beginnings of a text close at most as many brackets as the text does. -/
theorem closed_le_iff (hne : opening ≠ closing) (cs : List Char) (n : Nat) :
    closed opening closing cs ≤ n ↔
      ∀ front, front <+: cs → front.count closing ≤ front.count opening + n := by
  induction cs generalizing n with
  | nil => simp [closed]
  | cons c cs ih =>
    -- an empty beginning closes nothing, and the others begin with the first character
    have hcons : (∀ front, front <+: c :: cs → front.count closing ≤ front.count opening + n) ↔
        ∀ front, front <+: cs →
          (c :: front).count closing ≤ (c :: front).count opening + n := by
      constructor
      · intro h front hfront
        exact h _ (List.cons_prefix_cons.2 ⟨rfl, hfront⟩)
      · intro h front hfront
        rcases List.prefix_cons_iff.1 hfront with rfl | ⟨rest, rfl, hrest⟩
        · simp
        · exact h rest hrest
    rw [hcons, closed]
    split
    · next hc =>
      subst hc
      rw [Nat.sub_le_iff_le_add, ih (n + 1)]
      simp [List.count_cons_of_ne hne, Nat.add_assoc, Nat.add_comm 1 n]
    · next hopening =>
      split
      · next hc =>
        subst hc
        cases n with
        | zero =>
          refine iff_of_false (by omega) ?_
          intro h
          have hone := h [] List.nil_prefix
          simp [List.count_cons_of_ne hne.symm] at hone
        | succ n =>
          rw [Nat.add_le_add_iff_right, ih n]
          simp [List.count_cons_of_ne hne.symm, ← Nat.add_assoc]
      · next hclosing =>
        rw [ih n]
        simp [List.count_cons_of_ne hopening, List.count_cons_of_ne hclosing]

theorem closesNothing_iff (hne : opening ≠ closing) (cs : List Char) :
    closesNothing opening closing cs = true ↔ closed opening closing cs = 0 := by
  rw [← Nat.le_zero, closed_le_iff hne]
  simp [closesNothing]

/-- A text closes nothing that was opened before it just when it rises. -/
theorem closesNothing_iff_rises (cs : List Char) :
    closesNothing opening closing cs = true ↔ ∃ excess, Rises opening closing excess cs := by
  have hall : closesNothing opening closing cs = true ↔
      ∀ front, front <+: cs → front.count closing ≤ front.count opening := by
    simp [closesNothing]
  rw [hall]
  constructor
  · intro h
    exact ⟨cs.count opening - cs.count closing, h,
      (Nat.add_sub_cancel' (h cs (List.prefix_refl _))).symm⟩
  · rintro ⟨excess, h⟩
    exact h.never_below

/-- Of the brackets that are open before a text it closes some, and it adds those that it leaves
open. -/
theorem foldl_nest (hne : opening ≠ closing) (depth : Nat) (cs : List Char) :
    cs.foldl (nest opening closing) depth =
      unclosed opening closing cs + (depth - closed opening closing cs) := by
  induction cs generalizing depth with
  | nil => simp [unclosed, closed]
  | cons c cs ih =>
    rw [List.foldl_cons, ih, unclosed, closed, nest]
    simp only [closesNothing_iff hne]
    by_cases hopening : c = opening
    · -- a bracket that is closed later on is one less to be closed by the rest
      by_cases h : closed opening closing cs = 0
      · simp only [hopening, h, and_self, if_true]
        omega
      · simp only [hopening, h, and_false, if_true, if_false]
        omega
    · by_cases hclosing : c = closing
      · simp only [hclosing, hne.symm, false_and, if_true, if_false]
        omega
      · simp only [hopening, hclosing, false_and, if_false]
        omega

/-- Counting from the left ends with the number of brackets that nothing closes. -/
theorem nestingDepth_eq_unclosed (hne : opening ≠ closing) (cs : List Char) :
    nestingDepth opening closing cs = unclosed opening closing cs := by
  rw [nestingDepth, foldl_nest hne, Nat.zero_sub, Nat.add_zero]

end Unclosed

end Stylesheet.Text
