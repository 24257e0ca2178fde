import Mathlib.Data.List.Basic
import Stylesheet.Scan.Window

set_option autoImplicit false

/-! # The summary of a window

A window keeps three facts about its text beside the text. `Window.Sound` says that they are right:
the size, whether there is anything but blanks, and where the last line break is. Every way of
changing a window keeps it sound. -/

namespace Stylesheet

namespace Text

/-- The last line break of the text begins at byte `offset`: at its line feed, or at the carriage
return right before that. -/
def IsLastBreak (cs : List Char) (offset : Nat) : Prop :=
  ∃ before after, '\n' ∉ after ∧ byteSize before = offset ∧
    (cs = before ++ '\n' :: after ∧ before.getLast? ≠ some '\r' ∨
      cs = before ++ '\r' :: '\n' :: after)

theorem IsLastBreak.append {cs : List Char} {offset : Nat} (h : IsLastBreak cs offset) {c : Char}
    (hc : c ≠ '\n') : IsLastBreak (cs ++ [c]) offset := by
  obtain ⟨before, after, hafter, hsize, hcs⟩ := h
  have hafter' : '\n' ∉ after ++ [c] := by
    simp [hafter, Ne.symm hc]
  refine ⟨before, after ++ [c], hafter', hsize, ?_⟩
  rcases hcs with ⟨rfl, hlast⟩ | rfl
  · exact Or.inl ⟨by simp, hlast⟩
  · exact Or.inr (by simp)

/-- Going back from the end of a text finds its last line break. -/
theorem isLastBreak_of_lastBreak? {cs : List Char} {offset : Nat}
    (h : lastBreak? cs = some offset) : IsLastBreak cs offset := by
  obtain ⟨lineFeed, hlast, hoffset⟩ := Option.map_eq_some_iff.1 h
  obtain ⟨before, after, rfl, hafter, rfl⟩ := exists_of_lastOffset? hlast
  have hslice : slice? 0 (byteSize before) (before ++ '\n' :: after) = some before := by
    simpa using slice?_append [] before ('\n' :: after)
  rw [hslice, Option.bind_some] at hoffset
  split at hoffset
  · next hreturn =>
    obtain ⟨front, rfl⟩ := List.getLast?_eq_some_iff.1 hreturn
    have hsize : byteSize (front ++ ['\r']) = byteSize front + 1 := by
      rw [byteSize_append]
      rfl
    exact ⟨front, after, hafter, by omega, Or.inr (by simp)⟩
  · next hother => exact ⟨before, after, hafter, hoffset, Or.inl ⟨rfl, hother⟩⟩

theorem not_mem_of_lastBreak?_eq_none {cs : List Char} (h : lastBreak? cs = none) : '\n' ∉ cs :=
  not_mem_of_lastOffset?_eq_none (Option.map_eq_none_iff.1 h)

/-- At its last line break a text can be cut, and something follows the cut. -/
theorem IsLastBreak.exists_append {cs : List Char} {offset : Nat} (h : IsLastBreak cs offset) :
    ∃ before after, cs = before ++ after ∧ byteSize before = offset ∧ after ≠ [] := by
  obtain ⟨before, after, -, hsize, hcs⟩ := h
  rcases hcs with ⟨rfl, -⟩ | rfl
  · exact ⟨before, '\n' :: after, rfl, hsize, by simp⟩
  · exact ⟨before, '\r' :: '\n' :: after, rfl, hsize, by simp⟩

/-- A text has one last line feed. -/
theorem eq_of_append_lineFeed {before after before' after' : List Char} (hafter : '\n' ∉ after)
    (hafter' : '\n' ∉ after') (h : before ++ '\n' :: after = before' ++ '\n' :: after') :
    before = before' := by
  -- read backwards, the text goes on to the line feed
  have hdrop (front rest : List Char) (hrest : '\n' ∉ rest) :
      (front ++ '\n' :: rest).reverse.dropWhile (· != '\n') = '\n' :: front.reverse := by
    have hne : ∀ c ∈ rest.reverse, (c != '\n') = true := by
      intro c hc
      rw [List.mem_reverse] at hc
      simpa using ne_of_mem_of_not_mem hc hrest
    simp [List.dropWhile_append_of_pos hne]
  have hfront := hdrop before after hafter
  rw [h, hdrop before' after' hafter'] at hfront
  simpa [eq_comm] using hfront

/-- The last line break begins at one offset only. -/
theorem IsLastBreak.unique {cs : List Char} {m n : Nat} (hm : IsLastBreak cs m)
    (hn : IsLastBreak cs n) : m = n := by
  obtain ⟨before, after, hafter, rfl, hcs⟩ := hm
  obtain ⟨before', after', hafter', rfl, hcs'⟩ := hn
  have hpair (front rest : List Char) :
      front ++ '\r' :: '\n' :: rest = (front ++ ['\r']) ++ '\n' :: rest := by simp
  rcases hcs with ⟨rfl, hlast⟩ | rfl <;> rcases hcs' with ⟨hcs', hlast'⟩ | hcs'
  · rw [eq_of_append_lineFeed hafter hafter' hcs']
  · rw [hpair] at hcs'
    rw [eq_of_append_lineFeed hafter hafter' hcs'] at hlast
    simp at hlast
  · rw [hpair] at hcs'
    rw [← eq_of_append_lineFeed hafter hafter' hcs'] at hlast'
    simp at hlast'
  · rw [hpair, hpair] at hcs'
    rw [List.append_cancel_right (eq_of_append_lineFeed hafter hafter' hcs')]

end Text

namespace Window

/-- What the window says about its text is so. -/
structure Sound (w : Window) : Prop where
  bytes : w.bytes = Text.byteSize w.text
  hasText : w.hasText = !Text.allBlank w.text
  noBreak : w.lineBreak = none → '\n' ∉ w.text
  lastBreak : ∀ offset, w.lineBreak = some offset → Text.IsLastBreak w.text offset

theorem sound_empty : Sound {} where
  bytes := rfl
  hasText := rfl
  noBreak := by simp [text, cells]
  lastBreak := by simp

theorem getLast?_text (w : Window) : w.text.getLast? = w.last? := by
  simp [text, cells, last?, Cell.text]

theorem bytes_push {w : Window} (h : w.bytes = Text.byteSize w.text) (c : Char) (p : Position) :
    (w.push c p).bytes = Text.byteSize (w.push c p).text := by
  simp [Window.push, Window.text, h, Cell.text, Window.cells]

theorem Sound.push {w : Window} (h : w.Sound) (c : Char) (p : Position) : (w.push c p).Sound where
  bytes := bytes_push h.bytes c p
  hasText := by
    rw [text_push]
    simp [Window.push, h.hasText, Text.allBlank, Bool.not_and]
  noBreak := by
    rw [text_push]
    intro hnone
    by_cases hc : c = '\n'
    · simp [Window.push, hc] at hnone
    · have hn : w.lineBreak = none := by simpa [Window.push, hc] using hnone
      simp [h.noBreak hn, Ne.symm hc]
  lastBreak := by
    rw [text_push]
    intro offset hsome
    by_cases hc : c = '\n'
    · subst hc
      simp only [Window.push, if_true, Option.some.injEq] at hsome
      by_cases hr : w.last? = some '\r'
      · -- the line feed completes a pair, whose break begins one byte earlier
        rw [if_pos hr] at hsome
        rw [← getLast?_text] at hr
        obtain ⟨front, hfront⟩ := List.getLast?_eq_some_iff.1 hr
        have hsize : w.bytes = Text.byteSize front + 1 := by
          rw [h.bytes, hfront, Text.byteSize_append]
          rfl
        exact ⟨front, [], by simp, by omega, Or.inr (by simp [hfront])⟩
      · rw [if_neg hr] at hsome
        exact ⟨w.text, [], by simp, by rw [← h.bytes]; exact hsome,
          Or.inl ⟨by simp, by rwa [getLast?_text]⟩⟩
    · have hs : w.lineBreak = some offset := by simpa [Window.push, hc] using hsome
      exact (h.lastBreak offset hs).append hc

/-- What is found out anew is so. -/
theorem sound_resummarize {w : Window} (h : w.bytes = Text.byteSize w.text) :
    w.resummarize.Sound where
  bytes := h
  hasText := by
    rw [text_resummarize, Text.allBlank, List.not_all_eq_any_not]
    rfl
  noBreak := Text.not_mem_of_lastBreak?_eq_none
  lastBreak _ := Text.isLastBreak_of_lastBreak?

theorem Sound.truncate {w : Window} (h : w.Sound) (offset : Nat) : (w.truncate offset).Sound := by
  unfold Window.truncate
  split
  · next before after hcut =>
    refine sound_resummarize ?_
    simpa [Window.text, Cell.text] using (Text.append_of_splitAtByte? hcut).2.symm
  · exact h

theorem Sound.dropBefore {w : Window} (h : w.Sound) (offset : Nat) :
    (w.dropBefore offset).Sound := by
  unfold Window.dropBefore
  split
  · next before after hcut =>
    obtain ⟨hcells, hsize⟩ := Text.append_of_splitAtByte? hcut
    have hbytes : w.bytes = offset + Text.byteSize (Cell.text after) := by
      rw [h.bytes, Window.text, ← hcells, ← hsize, Cell.text, List.map_append,
        Text.byteSize_append]
    refine sound_resummarize ?_
    simp [Window.text, hbytes]
  · exact h

theorem Sound.isBlank_iff {w : Window} (h : w.Sound) :
    w.isBlank = true ↔ ∀ cell ∈ w.cells, Text.isBlank cell.char = true := by
  simp [Window.isBlank, h.hasText, Text.allBlank, Window.text, Cell.text]

theorem Sound.isBlank_iff_text {w : Window} (h : w.Sound) :
    w.isBlank = true ↔ ∀ c ∈ w.text, Text.isBlank c = true := by
  simp [Window.isBlank, h.hasText, Text.allBlank]

/-- The window ends in a text exactly when its own text does. -/
theorem endsIn_iff (w : Window) (suffix : List Char) :
    w.endsIn suffix = true ↔ suffix <:+ w.text := by
  have htext : w.text = (Cell.text w.recent).reverse := by simp [text, cells, Cell.text]
  have htake : Cell.text (w.recent.take suffix.length) =
      (Cell.text w.recent).take suffix.reverse.length := by simp [Cell.text, List.map_take]
  rw [endsIn, beq_iff_eq, htext, htake, eq_comm, ← List.prefix_iff_eq_take,
    ← List.reverse_prefix, List.reverse_reverse]

theorem Sound.mem_text {w : Window} (hw : w.Sound) {offset : Nat}
    (hbreak : w.lineBreak = some offset) : '\n' ∈ w.text := by
  obtain ⟨before, after, -, -, ⟨htext, -⟩ | htext⟩ := hw.lastBreak offset hbreak <;> simp [htext]

theorem Sound.lineBreak_eq_some {w : Window} (hw : w.Sound) {offset : Nat}
    (hlast : Text.IsLastBreak w.text offset) : w.lineBreak = some offset := by
  cases hbreak : w.lineBreak with
  | none =>
    obtain ⟨before, after, -, -, ⟨htext, -⟩ | htext⟩ := hlast <;>
      exact absurd (by simp [htext]) (hw.noBreak hbreak)
  | some offset' => rw [(hw.lastBreak offset' hbreak).unique hlast]

theorem Sound.lineBreak_eq_some_iff {w : Window} (hw : w.Sound) {offset : Nat} :
    w.lineBreak = some offset ↔ Text.IsLastBreak w.text offset :=
  ⟨hw.lastBreak offset, hw.lineBreak_eq_some⟩

theorem Sound.lineBreak_eq_none_iff {w : Window} (hw : w.Sound) :
    w.lineBreak = none ↔ '\n' ∉ w.text := by
  refine ⟨hw.noBreak, fun hnone => ?_⟩
  cases hbreak : w.lineBreak with
  | none => rfl
  | some offset => exact absurd (hw.mem_text hbreak) hnone

/-- The summary of a window is one of its text. -/
theorem Sound.summary_eq {w w' : Window} (h : w.Sound) (h' : w'.Sound) (htext : w.text = w'.text) :
    w.bytes = w'.bytes ∧ w.hasText = w'.hasText ∧ w.lineBreak = w'.lineBreak := by
  refine ⟨by rw [h.bytes, h'.bytes, htext], by rw [h.hasText, h'.hasText, htext], ?_⟩
  cases hw' : w'.lineBreak with
  | none =>
    cases hw : w.lineBreak with
    | none => rfl
    | some offset => exact absurd (htext ▸ h.mem_text hw) (h'.noBreak hw')
  | some offset => exact h.lineBreak_eq_some (htext ▸ h'.lastBreak offset hw')

/-- A sound window is determined by its cells. -/
theorem Sound.eq_of_cells {w w' : Window} (h : w.Sound) (h' : w'.Sound)
    (hcells : w.cells = w'.cells) : w = w' := by
  have hrecent : w.recent = w'.recent := List.reverse_inj.1 hcells
  obtain ⟨hbytes, hhas, hbreak⟩ := h.summary_eq h' (by rw [text, text, hcells])
  cases w
  cases w'
  simp_all

/-! ## Filling -/

/-- The window that the given cells have come into. -/
def ofCells (cells : List Cell) : Window :=
  cells.foldl (fun w cell => w.push cell.char cell.position) {}

theorem cells_foldl_push (cells : List Cell) (w : Window) :
    (cells.foldl (fun w cell => w.push cell.char cell.position) w).cells = w.cells ++ cells := by
  induction cells generalizing w with
  | nil => simp
  | cons cell cells ih => simp [ih]

@[simp] theorem cells_ofCells (cells : List Cell) : (ofCells cells).cells = cells := by
  have h := cells_foldl_push cells {}
  simpa [ofCells, Window.cells] using h

theorem sound_ofCells (cells : List Cell) : (ofCells cells).Sound := by
  have hfold : ∀ w : Window, w.Sound →
      (cells.foldl (fun w cell => w.push cell.char cell.position) w).Sound := by
    induction cells with
    | nil => exact fun w hw => hw
    | cons cell cells ih => exact fun w hw => ih _ (hw.push cell.char cell.position)
  exact hfold {} sound_empty

/-- What is kept up to date while characters come in is what is found out anew. -/
theorem Sound.resummarize_eq {w : Window} (h : w.Sound) : w.resummarize = w :=
  (sound_resummarize h.bytes).eq_of_cells h rfl

/-! ## Cutting -/

theorem cells_truncate {w : Window} {before after : List Cell} {offset : Nat}
    (hcells : w.cells = before ++ after) (hsize : Text.byteSize (Cell.text before) = offset) :
    (w.truncate offset).cells = before := by
  have hsplit : Text.splitAtByte? Cell.char offset w.cells = some (before, after) := by
    rw [hcells, ← hsize]
    exact Text.splitAtByte?_append Cell.char before after
  simp [truncate, hsplit]

theorem cells_dropBefore {w : Window} {before after : List Cell} {offset : Nat}
    (hcells : w.cells = before ++ after) (hsize : Text.byteSize (Cell.text before) = offset) :
    (w.dropBefore offset).cells = after := by
  have hsplit : Text.splitAtByte? Cell.char offset w.cells = some (before, after) := by
    rw [hcells, ← hsize]
    exact Text.splitAtByte?_append Cell.char before after
  simp [dropBefore, hsplit]

theorem Sound.dropBefore_zero {w : Window} (h : w.Sound) : w.dropBefore 0 = w :=
  (h.dropBefore 0).eq_of_cells h (cells_dropBefore (List.nil_append _).symm rfl)

/-- Dropping what precedes the last line break leaves an end of the window that is not empty. -/
theorem Sound.exists_dropBefore {w : Window} (h : w.Sound) {offset : Nat}
    (hbreak : w.lineBreak = some offset) :
    ∃ front, w.cells = front ++ (w.dropBefore offset).cells ∧ (w.dropBefore offset).cells ≠ [] := by
  obtain ⟨before, after, htext, hsize, hafter⟩ := (h.lastBreak offset hbreak).exists_append
  obtain ⟨front, rest, hcells, hfront, hrest⟩ := List.map_eq_append_iff.1 htext
  have hdrop : (w.dropBefore offset).cells = rest := by
    apply cells_dropBefore hcells
    rw [Cell.text, hfront, hsize]
  refine ⟨front, by rw [hdrop, hcells], ?_⟩
  rw [hdrop]
  rintro rfl
  exact hafter hrest.symm

end Window

end Stylesheet
