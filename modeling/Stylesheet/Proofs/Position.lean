import Mathlib.Order.Defs.LinearOrder
import Stylesheet.Position

set_option autoImplicit false

/-! # The order of positions

Positions are linearly ordered, and moving over a character moves strictly forward. A position of
the source is therefore determined by the text in front of it, which is what lets spans stand for
pieces of text.

Counts are not bounded here. Where they are kept in machine words, what is said of a position is so
as long as both of its counts fit (`Position.Fits`). They do in every text that fits into memory
(`Position.HasRoomFor.fits_advanceAll`), but a token that was not read from a text may stand
anywhere. -/

namespace Stylesheet.Position

instance : LinearOrder Position where
  le_refl p := by simp [le_def]
  le_trans p q r := by simp only [le_def]; omega
  le_antisymm p q h₁ h₂ := by
    have hl : p.line = q.line := by simp only [le_def] at h₁ h₂; omega
    have hc : p.column = q.column := by simp only [le_def] at h₁ h₂; omega
    cases p; cases q; simp_all
  lt_iff_le_not_ge p q := by simp only [lt_def, le_def]; omega
  le_total p q := by simp only [le_def]; omega
  toDecidableLE := inferInstance
  toDecidableLT := inferInstance
  toDecidableEq := inferInstance
  compare_eq_compareOfLessAndEq p q := by
    obtain ⟨l, c⟩ := p
    obtain ⟨m, d⟩ := q
    change (compare l m).then (compare c d) = _
    rcases Nat.lt_trichotomy l m with hl | rfl | hl
    · simp [compareOfLessAndEq, lt_def, Nat.compare_eq_lt.2 hl, hl]
    · rcases Nat.lt_trichotomy c d with hc | rfl | hc
      · simp [compareOfLessAndEq, lt_def, Nat.compare_eq_lt.2 hc, hc]
      · simp [compareOfLessAndEq, lt_def]
      · have hcd : ¬ c < d ∧ c ≠ d := by omega
        simp [compareOfLessAndEq, lt_def, Nat.compare_eq_gt.2 hc, hcd]
    · have hlm : ¬ l < m ∧ l ≠ m := by omega
      simp [compareOfLessAndEq, lt_def, Nat.compare_eq_gt.2 hl, hlm]

/-- Both counts fit into words of 64 bits. -/
def Fits (p : Position) : Prop := p.line < UInt64.size ∧ p.column < UInt64.size

instance (p : Position) : Decidable p.Fits := inferInstanceAs (Decidable (_ ∧ _))

theorem advance_of_ne {c : Char} (h : c ≠ '\n') (p : Position) : p.advance c = p.nextColumn := by
  simp [advance, h]

theorem line_advanceAll_le (p : Position) (cs : List Char) :
    (p.advanceAll cs).line ≤ p.line + cs.length := by
  induction cs generalizing p with
  | nil => exact Nat.le_refl _
  | cons c cs ih =>
    have hline : (p.advance c).line ≤ p.line + 1 := by
      unfold advance
      split <;> simp [nextLine, nextColumn]
    have hrest := ih (p.advance c)
    simp only [advanceAll_cons, List.length_cons]
    omega

theorem column_advanceAll_le (p : Position) (cs : List Char) :
    (p.advanceAll cs).column ≤ p.column + cs.length := by
  induction cs generalizing p with
  | nil => exact Nat.le_refl _
  | cons c cs ih =>
    have hcolumn : (p.advance c).column ≤ p.column + 1 := by
      unfold advance
      split <;> simp [nextLine, nextColumn]
    have hrest := ih (p.advance c)
    simp only [advanceAll_cons, List.length_cons]
    omega

/-- Neither count overflows within `n` characters. -/
def HasRoomFor (p : Position) (n : Nat) : Prop :=
  p.line + n < UInt64.size ∧ p.column + n < UInt64.size

theorem HasRoomFor.fits {p : Position} {n : Nat} (h : p.HasRoomFor n) : p.Fits :=
  ⟨Nat.lt_of_le_of_lt (Nat.le_add_right _ _) h.1, Nat.lt_of_le_of_lt (Nat.le_add_right _ _) h.2⟩

theorem HasRoomFor.advanceAll {p : Position} {n m : Nat} (h : p.HasRoomFor n) {cs : List Char}
    (hlength : cs.length + m ≤ n) : (p.advanceAll cs).HasRoomFor m := by
  obtain ⟨hline, hcolumn⟩ := h
  have hline' := p.line_advanceAll_le cs
  have hcolumn' := p.column_advanceAll_le cs
  exact ⟨by omega, by omega⟩

theorem HasRoomFor.fits_advanceAll {p : Position} {n : Nat} (h : p.HasRoomFor n) {cs : List Char}
    (hlength : cs.length ≤ n) : (p.advanceAll cs).Fits :=
  (h.advanceAll (m := 0) hlength).fits

theorem le_advanceAll (p : Position) (cs : List Char) : p ≤ p.advanceAll cs := by
  induction cs generalizing p with
  | nil => exact le_refl p
  | cons c cs ih => exact le_trans (le_of_lt (p.lt_advance c)) (ih (p.advance c))

theorem lt_advanceAll (p : Position) {cs : List Char} (h : cs ≠ []) : p < p.advanceAll cs := by
  cases cs with
  | nil => exact absurd rfl h
  | cons c cs => exact lt_of_lt_of_le (p.lt_advance c) (le_advanceAll (p.advance c) cs)

/-- Moving over a text and on moves to another position, unless there is nothing more. -/
theorem eq_nil_of_advanceAll_append {p : Position} {cs ds : List Char}
    (h : p.advanceAll (cs ++ ds) = p.advanceAll cs) : ds = [] := by
  cases ds with
  | nil => rfl
  | cons d ds =>
    rw [advanceAll_append] at h
    exact absurd h (ne_of_gt ((p.advanceAll cs).lt_advanceAll (List.cons_ne_nil d ds)))

/-- A position of a text has one text in front of it. -/
theorem eq_of_advanceAll_eq {p : Position} {as bs cs : List Char} (has : as <+: cs)
    (hbs : bs <+: cs) (h : p.advanceAll as = p.advanceAll bs) : as = bs := by
  rcases List.prefix_or_prefix_of_prefix has hbs with ⟨more, rfl⟩ | ⟨more, rfl⟩
  · rw [eq_nil_of_advanceAll_append h.symm, List.append_nil]
  · rw [eq_nil_of_advanceAll_append h, List.append_nil]

/-- Of two beginnings of a text the one that ends first is a beginning of the other. -/
theorem advanceAll_le_iff {p : Position} {as bs cs : List Char} (has : as <+: cs)
    (hbs : bs <+: cs) : p.advanceAll as ≤ p.advanceAll bs ↔ as <+: bs := by
  constructor
  · intro h
    rcases List.prefix_or_prefix_of_prefix has hbs with hprefix | ⟨more, rfl⟩
    · exact hprefix
    · have heq : p.advanceAll (bs ++ more) = p.advanceAll bs := by
        refine le_antisymm h ?_
        rw [advanceAll_append]
        exact le_advanceAll _ _
      simp [eq_nil_of_advanceAll_append heq]
  · rintro ⟨more, rfl⟩
    rw [advanceAll_append]
    exact le_advanceAll _ _

end Stylesheet.Position
