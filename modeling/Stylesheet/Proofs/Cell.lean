import Mathlib.Data.List.Basic
import Stylesheet.Proofs.Position
import Stylesheet.Scan.Window

set_option autoImplicit false

/-! # The cells of a text

`Cell.ofText` puts every character of a text beside the position it stands at. The cells of a text
come in order, each ending before the next begins (`Cell.Ordered`), and so do the cells of any part
of it. For ordered cells `Cell.span?` is what its name says: it holds every visible cell, begins at
one and ends with one. -/

namespace Stylesheet.Cell

/-- The characters of the text, of which the first stands at `p`, with their positions. -/
def ofText (p : Position) : List Char → List Cell
  | [] => []
  | c :: cs => ⟨c, p⟩ :: ofText (p.advance c) cs

/-- The position right after the cell. -/
def stop (cell : Cell) : Position := cell.position.advance cell.char

def isVisible (cell : Cell) : Bool := !Text.isBlank cell.char

/-- Every cell ends before the next one begins. -/
def Ordered (cells : List Cell) : Prop := cells.Pairwise fun a b => a.stop ≤ b.position

theorem position_lt_stop (cell : Cell) : cell.position < cell.stop :=
  cell.position.lt_advance cell.char

/-- A visible character is no line break, so the next one stands beside it. -/
theorem stop_of_isVisible {cell : Cell} (h : cell.isVisible = true) :
    cell.stop = cell.position.nextColumn := by
  apply Position.advance_of_ne
  intro hc
  simp [isVisible, hc, show Text.isBlank '\n' = true by decide] at h

/-! ## Cells of a text -/

@[simp] theorem ofText_nil (p : Position) : ofText p [] = [] := rfl

@[simp] theorem ofText_append (p : Position) (cs ds : List Char) :
    ofText p (cs ++ ds) = ofText p cs ++ ofText (p.advanceAll cs) ds := by
  induction cs generalizing p with
  | nil => rfl
  | cons c cs ih => simp [ofText, ih]

@[simp] theorem ofText_singleton (p : Position) (c : Char) : ofText p [c] = [⟨c, p⟩] := rfl

@[simp] theorem text_ofText (p : Position) (cs : List Char) : text (ofText p cs) = cs := by
  induction cs generalizing p with
  | nil => rfl
  | cons c cs ih => simp [ofText, ih]

theorem mem_ofText_iff {cell : Cell} {p : Position} {cs : List Char} :
    cell ∈ ofText p cs ↔
      ∃ before after, cs = before ++ cell.char :: after ∧ cell.position = p.advanceAll before := by
  constructor
  · intro h
    induction cs generalizing p with
    | nil => simp at h
    | cons c cs ih =>
      rcases List.mem_cons.1 h with rfl | h
      · exact ⟨[], cs, rfl, rfl⟩
      · obtain ⟨before, after, rfl, hp⟩ := ih h
        exact ⟨c :: before, after, rfl, hp⟩
  · rintro ⟨before, after, rfl, hp⟩
    have hcell : cell = ⟨cell.char, p.advanceAll before⟩ := by rw [← hp]
    rw [ofText_append, hcell]
    simp [ofText]

theorem le_position_of_mem_ofText {cell : Cell} {p : Position} {cs : List Char}
    (h : cell ∈ ofText p cs) : p ≤ cell.position := by
  obtain ⟨before, after, -, hp⟩ := mem_ofText_iff.1 h
  rw [hp]
  exact p.le_advanceAll before

theorem stop_le_of_mem_ofText {cell : Cell} {p : Position} {cs : List Char}
    (h : cell ∈ ofText p cs) : cell.stop ≤ p.advanceAll cs := by
  obtain ⟨before, after, rfl, hp⟩ := mem_ofText_iff.1 h
  rw [stop, hp, Position.advanceAll_append, Position.advanceAll_cons]
  exact Position.le_advanceAll _ after

theorem ordered_ofText (p : Position) (cs : List Char) : Ordered (ofText p cs) := by
  induction cs generalizing p with
  | nil => exact List.Pairwise.nil
  | cons c cs ih =>
    refine List.Pairwise.cons ?_ (ih (p.advance c))
    intro cell h
    exact le_position_of_mem_ofText h

/-! ## Spans of cells -/

theorem span?_eq_none_iff {cells : List Cell} :
    span? cells = none ↔ ∀ cell ∈ cells, cell.isVisible = false := by
  have hvis : (fun cell : Cell => !Text.isBlank cell.char) = isVisible := rfl
  simp only [span?, hvis]
  constructor
  · intro h cell hcell
    cases hf : cells.filter isVisible with
    | nil => simpa using (List.filter_eq_nil_iff.1 hf) cell hcell
    | cons first rest =>
      rw [hf, List.head?_cons] at h
      cases hl : (first :: rest).getLast? with
      | none => simp at hl
      | some last => simp [hl] at h
  · intro h
    have hf : cells.filter isVisible = [] := by
      rw [List.filter_eq_nil_iff]
      intro cell hcell
      simp [h cell hcell]
    simp [hf]

/-- A span begins at the first visible cell and ends right after the last one. -/
theorem exists_of_span?_eq_some {cells : List Cell} {start stop : Position}
    (h : span? cells = some (start, stop)) :
    ∃ first last : Cell, (cells.filter isVisible).head? = some first ∧
      (cells.filter isVisible).getLast? = some last ∧
      first.position = start ∧ last.stop = stop := by
  have hvis : (fun cell : Cell => !Text.isBlank cell.char) = isVisible := rfl
  simp only [span?, hvis] at h
  split at h
  · next first last hfirst hlast =>
    simp only [Option.some.injEq, Prod.mk.injEq] at h
    have hmem : last ∈ cells.filter isVisible := List.mem_of_getLast? hlast
    have hl : last.isVisible = true := (List.mem_filter.1 hmem).2
    exact ⟨first, last, hfirst, hlast, h.1, by rw [stop_of_isVisible hl]; exact h.2⟩
  · simp at h

/-- The start of a span is where some visible cell stands. -/
theorem exists_position_eq_start {cells : List Cell} {start stop : Position}
    (h : span? cells = some (start, stop)) :
    ∃ cell ∈ cells, cell.isVisible ∧ cell.position = start := by
  obtain ⟨first, -, hfirst, -, rfl, -⟩ := exists_of_span?_eq_some h
  obtain ⟨hmem, hvis⟩ := List.mem_filter.1 (List.mem_of_head? hfirst)
  exact ⟨first, hmem, hvis, rfl⟩

theorem exists_stop_eq_stop {cells : List Cell} {start stop : Position}
    (h : span? cells = some (start, stop)) : ∃ cell ∈ cells, cell.isVisible ∧ cell.stop = stop := by
  obtain ⟨-, last, -, hlast, -, rfl⟩ := exists_of_span?_eq_some h
  obtain ⟨hmem, hvis⟩ := List.mem_filter.1 (List.mem_of_getLast? hlast)
  exact ⟨last, hmem, hvis, rfl⟩

/-- In an ordered list everything stands at or after the head. -/
theorem Ordered.head_le {cells : List Cell} (ho : Ordered cells) {first cell : Cell}
    (hfirst : cells.head? = some first) (h : cell ∈ cells) : first.position ≤ cell.position := by
  cases cells with
  | nil => simp at h
  | cons a rest =>
    simp only [List.head?_cons, Option.some.injEq] at hfirst
    subst hfirst
    rcases List.mem_cons.1 h with rfl | h
    · exact le_refl _
    · exact le_trans (le_of_lt a.position_lt_stop) ((List.pairwise_cons.1 ho).1 cell h)

/-- In an ordered list everything ends at or before the end of the last. -/
theorem Ordered.stop_le_last {cells : List Cell} (ho : Ordered cells) {last cell : Cell}
    (hlast : cells.getLast? = some last) (h : cell ∈ cells) : cell.stop ≤ last.stop := by
  obtain ⟨front, rfl⟩ := List.getLast?_eq_some_iff.1 hlast
  rcases List.mem_append.1 h with h | h
  · have hle : cell.stop ≤ last.position := (List.pairwise_append.1 ho).2.2 cell h last (by simp)
    exact le_trans hle (le_of_lt last.position_lt_stop)
  · rw [List.mem_singleton.1 h]

/-- Every visible cell lies within the span. -/
theorem Ordered.mem_span {cells : List Cell} (ho : Ordered cells) {start stop : Position}
    (h : span? cells = some (start, stop)) {cell : Cell} (hcell : cell ∈ cells)
    (hvis : cell.isVisible = true) : start ≤ cell.position ∧ cell.stop ≤ stop := by
  obtain ⟨first, last, hfirst, hlast, rfl, rfl⟩ := exists_of_span?_eq_some h
  have hmem : cell ∈ cells.filter isVisible := List.mem_filter.2 ⟨hcell, hvis⟩
  have hof : Ordered (cells.filter isVisible) := ho.filter isVisible
  exact ⟨hof.head_le hfirst hmem, hof.stop_le_last hlast hmem⟩

/-- A span is not empty. -/
theorem Ordered.start_lt_stop {cells : List Cell} (ho : Ordered cells) {start stop : Position}
    (h : span? cells = some (start, stop)) : start < stop := by
  obtain ⟨cell, hmem, hvis, rfl⟩ := exists_position_eq_start h
  exact lt_of_lt_of_le cell.position_lt_stop (ho.mem_span h hmem hvis).2

/-- More cells at the end leave the start of a span where it is. -/
theorem span?_append {cells more : List Cell} {start stop : Position}
    (h : span? cells = some (start, stop)) :
    ∃ stop', span? (cells ++ more) = some (start, stop') := by
  obtain ⟨first, -, hfirst, -, rfl, -⟩ := exists_of_span?_eq_some h
  have hhead : ((cells ++ more).filter isVisible).head? = some first := by
    rw [List.filter_append, List.head?_append, hfirst, Option.some_or]
  cases hs : span? (cells ++ more) with
  | none =>
    obtain ⟨hmem, hvis⟩ := List.mem_filter.1 (List.mem_of_head? hfirst)
    have := span?_eq_none_iff.1 hs first (List.mem_append_left _ hmem)
    simp [hvis] at this
  | some span =>
    obtain ⟨first', -, hfirst', -, hp, -⟩ := exists_of_span?_eq_some hs
    rw [hhead, Option.some.injEq] at hfirst'
    subst hfirst'
    exact ⟨span.2, by rw [← hp.symm]⟩

/-- After nothing but blanks the span is that of the visible cell itself. -/
theorem span?_append_visible {cells : List Cell} {cell : Cell}
    (hblank : ∀ a ∈ cells, a.isVisible = false) (hcell : cell.isVisible = true) :
    span? (cells ++ [cell]) = some (cell.position, cell.position.nextColumn) := by
  have hvis : (fun cell : Cell => !Text.isBlank cell.char) = isVisible := rfl
  have hfilter : (cells ++ [cell]).filter isVisible = [cell] := by
    rw [List.filter_append, List.filter_eq_nil_iff.2 (by simpa using hblank)]
    simp [hcell]
  simp [span?, hvis, hfilter]

end Stylesheet.Cell
