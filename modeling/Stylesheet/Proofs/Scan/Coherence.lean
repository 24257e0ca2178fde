import Mathlib.Data.List.Induction
import Stylesheet.Proofs.Scan.Claim
import Stylesheet.Proofs.Window

set_option autoImplicit false

/-! # What the scanner holds while it scans

Between two characters the state agrees with the text scanned so far (`State.Settled`): the window
holds characters of the text at their own positions and in order, its summary is right, an open
token begins where the window says it does, and an open comment stands where it says. The same is
said of a state that offers a character to the rules (`State.Offered`), where it is about the window
without that character. `settled_after` is the result for every text. -/

namespace Stylesheet

/-! ## Open tokens and comments -/

/-- The cells begin with the text that opened the token. -/
def OpenToken.Begins (t : OpenToken) (cells : List Cell) : Prop :=
  match t.kind with
  | .property name => ∃ head rest stop, cells = head ++ rest ∧
      Payload.declarationName? (Cell.text head) = some name ∧
      Cell.span? head = some (t.start, stop)
  | .atRule => ∃ head rest stop, cells = head ++ rest ∧
      Payload.isAtSign (Cell.text head) = true ∧ Cell.span? head = some (t.start, stop)
  | .whitespace => (∀ cell ∈ cells, cell.isVisible = false) ∧
      cells.head?.map Cell.position = some t.start

/-- The text that opens a token of the given kind ends in the given character. -/
def OpenKind.opener : OpenKind → Option Char
  | .property _ => some ':'
  | .atRule => some '@'
  | .whitespace => none

theorem getLast?_of_isAtSign {cs : List Char} (h : Payload.isAtSign cs = true) :
    cs.getLast? = some '@' := by
  have htrim : cs.dropWhile Text.isBlank = ['@'] := by
    simpa [Payload.isAtSign, Text.trimStart] using h
  rw [← List.takeWhile_append_dropWhile (p := Text.isBlank) (l := cs), htrim]
  simp

theorem getLast?_of_declarationName? {cs : List Char} {name : String}
    (h : Payload.declarationName? cs = some name) : cs.getLast? = some ':' := by
  unfold Payload.declarationName? at h
  dsimp only at h
  split at h
  · next hcolon =>
    have hsuffix : [':'] <:+ cs := by
      rw [← hcolon]
      exact (List.dropWhile_suffix _).trans
        ((List.dropWhile_suffix _).trans (List.dropWhile_suffix _))
    obtain ⟨front, rfl⟩ := hsuffix
    simp
  · simp at h

namespace OpenToken

variable {t : OpenToken} {cells more : List Cell}

/-- A token that is not indentation begins with some text that opened it. -/
theorem Begins.exists_head (h : t.Begins cells) (hkind : t.kind ≠ .whitespace) :
    ∃ head rest stop, cells = head ++ rest ∧ (Cell.text head).getLast? = t.kind.opener ∧
      Cell.span? head = some (t.start, stop) ∧ ∀ other, t.Begins (head ++ other) := by
  unfold Begins at h
  cases hk : t.kind with
  | property name =>
    simp only [hk] at h
    obtain ⟨head, rest, stop, hcells, hname, hspan⟩ := h
    refine ⟨head, rest, stop, hcells, getLast?_of_declarationName? hname, hspan, ?_⟩
    intro other
    simp only [Begins, hk]
    exact ⟨head, other, stop, rfl, hname, hspan⟩
  | atRule =>
    simp only [hk] at h
    obtain ⟨head, rest, stop, hcells, hsign, hspan⟩ := h
    refine ⟨head, rest, stop, hcells, getLast?_of_isAtSign hsign, hspan, ?_⟩
    intro other
    simp only [Begins, hk]
    exact ⟨head, other, stop, rfl, hsign, hspan⟩
  | whitespace => exact absurd hk hkind

theorem Begins.append (h : t.Begins cells) (hkind : t.kind ≠ .whitespace) (more : List Cell) :
    t.Begins (cells ++ more) := by
  obtain ⟨head, rest, -, rfl, -, -, hother⟩ := h.exists_head hkind
  rw [List.append_assoc]
  exact hother (rest ++ more)

/-- The span of the cells begins where the token does. -/
theorem Begins.span (h : t.Begins cells) (hkind : t.kind ≠ .whitespace) :
    ∃ stop, Cell.span? cells = some (t.start, stop) := by
  obtain ⟨head, rest, stop, rfl, -, hspan, -⟩ := h.exists_head hkind
  exact Cell.span?_append hspan

/-- A slash opens no token, so it can be taken back. -/
theorem Begins.of_append_slash {slash : Cell} (h : t.Begins (cells ++ [slash]))
    (hslash : slash.char = '/') : t.kind ≠ .whitespace ∧ t.Begins cells := by
  have hkind : t.kind ≠ .whitespace := by
    intro hk
    simp only [Begins, hk] at h
    have hvisible := h.1 slash (by simp)
    rw [Cell.isVisible, hslash] at hvisible
    exact absurd hvisible (by decide)
  refine ⟨hkind, ?_⟩
  obtain ⟨head, rest, -, hcells, hlast, -, hother⟩ := h.exists_head hkind
  rcases List.eq_nil_or_concat rest with rfl | ⟨front, cell, rfl⟩
  · -- the slash would be the character that opened the token
    have hchar : t.kind.opener = some '/' := by
      rw [← hlast, ← List.append_nil head, ← hcells]
      simp [hslash]
    cases hk : t.kind <;> simp [hk, OpenKind.opener] at hchar
  · rw [List.concat_eq_append, ← List.append_assoc] at hcells
    have hcells' : cells = head ++ front := (List.append_inj' hcells rfl).1
    rw [hcells']
    exact hother front

/-- Some cell stands where the token begins, and no visible cell stands before it. -/
theorem Begins.exists_cell (h : t.Begins cells) (ho : Cell.Ordered cells) :
    (∃ cell ∈ cells, cell.position = t.start) ∧
      ∀ cell ∈ cells, cell.isVisible = true → t.start ≤ cell.position := by
  by_cases hkind : t.kind = .whitespace
  · simp only [Begins, hkind] at h
    obtain ⟨first, hfirst, hposition⟩ := Option.map_eq_some_iff.1 h.2
    refine ⟨⟨first, List.mem_of_head? hfirst, hposition⟩, ?_⟩
    intro cell hcell hvisible
    simp [h.1 cell hcell] at hvisible
  · obtain ⟨stop, hspan⟩ := h.span hkind
    obtain ⟨first, hfirst, -, hposition⟩ := Cell.exists_position_eq_start hspan
    exact ⟨⟨first, hfirst, hposition⟩, fun cell hcell hvis => (ho.mem_span hspan hcell hvis).1⟩

theorem begins_whitespace_iff (hkind : t.kind = .whitespace) :
    t.Begins cells ↔ (∀ cell ∈ cells, cell.isVisible = false) ∧
      cells.head?.map Cell.position = some t.start := by
  simp [Begins, hkind]

end OpenToken

/-- The comment stands in the cells where it says, after text that may belong to an open token. -/
def OpenComment.Interrupts (k : OpenComment) (current : Option OpenToken) (cells : List Cell) :
    Prop :=
  ∃ (before inside : List Cell) (slash star : Cell), cells = before ++ slash :: star :: inside ∧
    slash.char = '/' ∧ star.char = '*' ∧ Text.byteSize (Cell.text before) = k.offset ∧
    slash.position = k.start ∧
    k.embedded = (current.isSome || !Text.allBlank (Cell.text before)) ∧
    ∀ t, current = some t → t.kind ≠ .whitespace ∧ t.Begins before

theorem OpenComment.Interrupts.append {k : OpenComment} {current : Option OpenToken}
    {cells : List Cell} (h : k.Interrupts current cells) (more : List Cell) :
    k.Interrupts current (cells ++ more) := by
  obtain ⟨before, inside, slash, star, rfl, hrest⟩ := h
  exact ⟨before, inside ++ more, slash, star, by simp, hrest⟩

/-- A comment that stands alone has nothing but blanks before it and no open token around it. -/
theorem OpenComment.Interrupts.of_standalone {k : OpenComment} {current : Option OpenToken}
    {cells : List Cell} (h : k.Interrupts current cells) (halone : k.embedded = false) :
    current = none ∧ ∃ before rest, cells = before ++ rest ∧
      (∀ cell ∈ before, cell.isVisible = false) ∧
      rest.head?.map Cell.position = some k.start := by
  obtain ⟨before, inside, slash, star, hcells, -, -, -, hstart, hembedded, -⟩ := h
  rw [halone] at hembedded
  obtain ⟨hcurrent, hblank⟩ := Bool.or_eq_false_iff.1 hembedded.symm
  refine ⟨by simpa using hcurrent, before, slash :: star :: inside, hcells, ?_, by simp [hstart]⟩
  simpa [Text.allBlank, Cell.isVisible] using hblank

/-- Cutting the window at an open comment leaves what stood before the comment. -/
theorem OpenComment.Interrupts.truncate {k : OpenComment} {current : Option OpenToken}
    {cells more : List Cell} {w : Window} (h : k.Interrupts current cells)
    (hw : w.cells = cells ++ more) :
    ∃ before rest, w.cells = before ++ rest ∧ (w.truncate k.offset).cells = before ∧
      rest.head?.map Cell.position = some k.start ∧
      ∀ t, current = some t → t.kind ≠ .whitespace ∧ t.Begins before := by
  obtain ⟨before, inside, slash, star, rfl, -, -, hsize, hstart, -, hbegins⟩ := h
  have hcells : w.cells = before ++ (slash :: star :: inside ++ more) := by
    rw [hw, List.append_assoc]
  exact ⟨before, _, hcells, Window.cells_truncate hcells hsize, by simp [hstart], hbegins⟩

/-- A comment among other text that interrupts no token leaves visible text when it is taken out. -/
theorem OpenComment.Interrupts.exists_visible {k : OpenComment} {cells more : List Cell} {w : Window}
    (h : k.Interrupts none cells) (hw : w.cells = cells ++ more) (hembedded : k.embedded = true) :
    ∃ cell ∈ (w.truncate k.offset).cells, cell.isVisible = true := by
  obtain ⟨before, inside, slash, star, rfl, -, -, hsize, -, hvisible, -⟩ := h
  rw [Window.cells_truncate (by rw [hw, List.append_assoc]) hsize]
  have hall : Text.allBlank (Cell.text before) = false := by
    simpa [hembedded] using hvisible
  simpa [Text.allBlank, Cell.isVisible] using hall

namespace Scan

namespace State

/-- What is open agrees with the cells, which are those the last rule has looked at. -/
structure Coherent (s : State) (cells : List Cell) : Prop where
  inBlock : ∀ t name, s.current = some t → t.kind = .property name → s.blocks ≠ []
  current : s.comment = none → ∀ t, s.current = some t → t.Begins cells
  comment : ∀ k, s.comment = some k → k.Interrupts s.current cells

/-- With nothing open there is nothing to agree with. -/
theorem coherent_of_none {s : State} {cells : List Cell} (hcurrent : s.current = none)
    (hcomment : s.comment = none) : s.Coherent cells where
  inBlock := by simp [hcurrent]
  current := by simp [hcurrent]
  comment := by simp [hcomment]

/-- The state is one that scanning `cs` can leave behind. -/
structure Settled (s : State) (cs : List Char) : Prop where
  next : s.next = Position.start.advanceAll cs
  window : s.window.Sound
  cells : s.window.cells.Sublist (Cell.ofText .start cs)
  coherent : s.Coherent s.window.cells

/-- The state offers the character `c` that follows `cs` to the rules. -/
structure Offered (s : State) (cs : List Char) (c : Char) : Prop where
  position : s.position = Position.start.advanceAll cs
  next : s.next = s.position.advance c
  window : s.window.Sound
  cells : s.window.cells = s.window.body ++ [⟨c, s.position⟩]
  body : s.window.body.Sublist (Cell.ofText .start cs)
  coherent : s.Coherent s.window.body

/-- The character is offered again, after a token that it finished. -/
structure OfferedAgain (s : State) (cs : List Char) (c : Char) : Prop extends s.Offered cs c where
  body_eq_nil : s.window.body = []
  current_eq_none : s.current = none
  comment_eq_none : s.comment = none

theorem Settled.arrive {s : State} {cs : List Char} (h : s.Settled cs) (c : Char) :
    (s.arrive c).Offered cs c where
  position := h.next
  next := rfl
  window := h.window.push c s.next
  cells := by simp [State.arrive]
  body := h.cells
  coherent := ⟨h.coherent.inBlock, h.coherent.current, h.coherent.comment⟩

namespace Offered

variable {s : State} {cs : List Char} {c : Char} (h : s.Offered cs c)

include h

theorem last : s.window.last? = some c := by
  rw [← Window.getLast?_text, Window.text, h.cells]
  simp

theorem next_eq : s.next = Position.start.advanceAll (cs ++ [c]) := by
  rw [h.next, h.position]
  simp

theorem cells_sublist : s.window.cells.Sublist (Cell.ofText .start (cs ++ [c])) := by
  rw [h.cells, h.position, Cell.ofText_append, Cell.ofText_singleton]
  exact h.body.append (List.Sublist.refl _)

theorem ordered_body : Cell.Ordered s.window.body :=
  (Cell.ordered_ofText _ _).sublist h.body

theorem stop_le_position {cell : Cell} (hcell : cell ∈ s.window.body) :
    cell.stop ≤ s.position := by
  rw [h.position]
  exact Cell.stop_le_of_mem_ofText (h.body.subset hcell)

theorem position_lt_next : s.position < s.next := by
  rw [h.next]
  exact s.position.lt_advance c

/-- Visible text before the character begins in the window and ends before the character. -/
theorem bodyStop_of_span {start stop : Position}
    (hspan : Cell.span? s.window.body = some (start, stop)) :
    (∃ cell ∈ s.window.cells, cell.position = start) ∧ s.bodyStop = stop ∧ start < stop ∧
      stop ≤ s.position := by
  obtain ⟨first, hfirst, -, hposition⟩ := Cell.exists_position_eq_start hspan
  obtain ⟨last, hlast, -, rfl⟩ := Cell.exists_stop_eq_stop hspan
  exact ⟨⟨first, by simp [h.cells, hfirst], hposition⟩, by simp [State.bodyStop, hspan],
    h.ordered_body.start_lt_stop hspan, h.stop_le_position hlast⟩

/-- Indentation holds nothing visible. -/
theorem span?_of_whitespace {t : OpenToken} (hk : s.comment = none) (hcurrent : s.current = some t)
    (hkind : t.kind = .whitespace) : Cell.span? s.window.body = none :=
  Cell.span?_eq_none_iff.2
    ((OpenToken.begins_whitespace_iff hkind).1 (h.coherent.current hk t hcurrent)).1

end Offered

/-! ## Completing a token -/

@[simp] theorem continues_comment (rule : Rule) (c : Char) :
    continues .comment rule c = false := by
  simp [continues, TokenType.isBoundary, Rule.order, Rule.handsOff]

@[simp] theorem continues_block (rule : Rule) (c : Char) :
    continues .block rule c = false := by
  simp [continues, TokenType.isBoundary]

@[simp] theorem continues_selector (c : Char) :
    continues .selector .selector c = (c == '{') := by
  simp [continues, TokenType.isBoundary, Rule.order, Rule.handsOff]

@[simp] theorem continues_atRule (c : Char) :
    continues .atRule .atRule c = (c == '{') := by
  simp [continues, TokenType.isBoundary, Rule.order, Rule.handsOff]

@[simp] theorem continues_property (c : Char) :
    continues .property .property c = (c == '}') := by
  simp [continues, TokenType.isBoundary, Rule.order, Rule.handsOff]

@[simp] theorem continues_whitespace (c : Char) :
    continues .whitespace .whitespace c = true := by
  simp [continues, TokenType.isBoundary, Rule.order, Rule.handsOff]

section Complete

variable (s : State) (t : Token)

@[simp] theorem next_accept : (s.accept t).2.next = s.next := by
  unfold accept; split <;> rfl

@[simp] theorem position_accept : (s.accept t).2.position = s.position := by
  unfold accept; split <;> rfl

@[simp] theorem current_accept : (s.accept t).2.current = s.current := by
  unfold accept; split <;> rfl

@[simp] theorem comment_accept : (s.accept t).2.comment = s.comment := by
  unfold accept; split <;> rfl

@[simp] theorem nextId_accept : (s.accept t).2.nextId = s.nextId := by
  unfold accept; split <;> rfl

@[simp] theorem next_complete : (s.complete t).2.next = s.next := by
  simp [complete, clearWindow, recordCompleted]

@[simp] theorem position_complete : (s.complete t).2.position = s.position := by
  simp [complete, clearWindow, recordCompleted]

@[simp] theorem current_complete : (s.complete t).2.current = s.current := by
  simp [complete, clearWindow, recordCompleted]

@[simp] theorem comment_complete : (s.complete t).2.comment = s.comment := by
  simp [complete, clearWindow, recordCompleted]

@[simp] theorem nextId_complete : (s.complete t).2.nextId = s.nextId := by
  simp [complete, clearWindow, recordCompleted]

@[simp] theorem window_complete : (s.complete t).2.window = {} := rfl

end Complete

end State

/-! ## One claim -/

section Step

variable {s s' : State} {cs : List Char} {c : Char} {rule : Rule} {outcome : Outcome}

/-- Whoever finishes a token leaves neither a token nor a comment open. -/
theorem Claim.eq_none_of_token (hs : s.Offered cs c) (h : Claim s c rule outcome s') {t : Token}
    (ht : outcome.token? = some t) : s'.current = none ∧ s'.comment = none := by
  cases h with
  | closeComment k hk _ _ hembedded =>
    exact ⟨((hs.coherent.comment k hk).of_standalone hembedded).1, rfl⟩
  | closeAtRule hk | closeProperty hk | closeWhitespace hk | selector hk => exact ⟨rfl, hk⟩
  | closeBlock hk hcurrent | closeBlockAfter hk hcurrent => exact ⟨hcurrent, hk⟩
  | _ => simp [Outcome.token?] at ht

theorem Claim.next_eq (h : Claim s c rule outcome s') : s'.next = s.next := by
  cases h <;> rfl

theorem Claim.position_eq (h : Claim s c rule outcome s') : s'.position = s.position := by
  cases h <;> rfl

/-- Nothing but blanks stands before a lone `@`. -/
theorem allBlank_of_isAtSign {cs : List Char} (h : Payload.isAtSign (cs ++ ['@']) = true) :
    Text.allBlank cs = true := by
  have htrim : (cs ++ ['@']).dropWhile Text.isBlank = ['@'] := by
    simpa [Payload.isAtSign, Text.trimStart] using h
  have hnil : cs.dropWhile Text.isBlank = [] := by
    rw [List.dropWhile_append] at htrim
    split at htrim
    · next hempty => simpa using hempty
    · have hlength := congrArg List.length htrim
      simp only [List.length_append, List.length_cons, List.length_nil] at hlength
      exact List.eq_nil_of_length_eq_zero (by omega)
  exact Text.trimStart_eq_nil_iff.1 hnil

/-- An at-rule opens at its `@`, which is the only visible character so far. -/
theorem span?_of_isAtSign {cells : List Cell} {p : Position}
    (h : Payload.isAtSign (Cell.text (cells ++ [⟨'@', p⟩])) = true) :
    Cell.span? (cells ++ [⟨'@', p⟩]) = some (p, p.nextColumn) := by
  have hblank : Text.allBlank (Cell.text cells) = true :=
    allBlank_of_isAtSign (by simpa using h)
  refine Cell.span?_append_visible ?_ (show !Text.isBlank '@' by decide)
  simpa [Text.allBlank, Cell.isVisible] using hblank

/-- A comment begins two bytes before the end of the window that opens it. -/
theorem byteSize_of_opening {w : Window} (hw : w.Sound) {star slash : Cell} {before : List Cell}
    (hrecent : w.recent = star :: slash :: before) (hstar : star.char = '*')
    (hslash : slash.char = '/') : Text.byteSize (Cell.text before.reverse) = w.bytes - 2 := by
  have hcells : w.cells = before.reverse ++ [slash, star] := by simp [Window.cells, hrecent]
  have htwo : Text.byteSize (Cell.text [slash, star]) = 2 := by
    simp only [Cell.text, List.map_cons, List.map_nil, hslash, hstar]
    rfl
  have hbytes : w.bytes = Text.byteSize (Cell.text before.reverse) + 2 := by
    rw [hw.bytes, Window.text, hcells, Cell.text, List.map_append, Text.byteSize_append, ← htwo]
  omega

/-- A claim that finishes no token leaves a settled state behind. -/
theorem Claim.settled (hs : s.Offered cs c) (h : Claim s c rule outcome s')
    (ht : outcome.token? = none) : s'.Settled (cs ++ [c]) := by
  have hnext : s'.next = Position.start.advanceAll (cs ++ [c]) := h.next_eq.trans hs.next_eq
  have hempty : ({} : Window).cells.Sublist (Cell.ofText .start (cs ++ [c])) :=
    List.nil_sublist _
  cases h with
  | inComment k hk =>
    refine ⟨hnext, hs.window, hs.cells_sublist, hs.coherent.inBlock, by simp [hk], ?_⟩
    intro k' hk'
    rw [hs.cells]
    exact (hs.coherent.comment k' hk').append _
  | stripComment k hk =>
    obtain ⟨before, rest, hcells, hcut, -, hbegins⟩ :=
      (hs.coherent.comment k hk).truncate hs.cells
    refine ⟨hnext, hs.window.truncate _, ?_, hs.coherent.inBlock, ?_, by simp⟩
    · have hsub : before.Sublist s.window.cells := by
        rw [hcells]
        exact List.sublist_append_left _ _
      simpa only [hcut] using hsub.trans hs.cells_sublist
    · intro _ t hcurrent
      simpa only [hcut] using (hbegins t hcurrent).2
  | openComment hk star slash before hrecent hstar hslash =>
    -- the slash was still part of the text before the comment when the last rule saw the window
    have hbody : s.window.body = before.reverse ++ [slash] := by simp [Window.body, hrecent]
    have hcells : s.window.cells = before.reverse ++ slash :: star :: [] := by
      simp [Window.cells, hrecent]
    have hsize := byteSize_of_opening hs.window hrecent hstar hslash
    refine ⟨hnext, hs.window, hs.cells_sublist, hs.coherent.inBlock, by simp [State.openComment],
      ?_⟩
    intro k hk'
    simp only [State.openComment, Option.some.injEq] at hk'
    subst hk'
    refine ⟨before.reverse, [], slash, star, hcells, hslash, hstar, hsize, rfl, rfl, ?_⟩
    intro t hcurrent
    have hbegins := hs.coherent.current hk t hcurrent
    rw [hbody] at hbegins
    exact hbegins.of_append_slash hslash
  | openAtRule hk hcurrent hc hsign =>
    refine ⟨hnext, hs.window, hs.cells_sublist, ?_, ?_, by simp [State.openToken, hk]⟩
    · intro t name ht' hkind
      simp only [State.openToken, Option.some.injEq] at ht'
      rw [← ht'] at hkind
      simp at hkind
    · intro _ t ht'
      simp only [State.openToken, Option.some.injEq] at ht'
      have hcells := hs.cells
      rw [hc] at hcells
      have hspan : Cell.span? s.window.cells = some (s.position, s.position.nextColumn) := by
        rw [hcells]
        apply span?_of_isAtSign
        rw [← hcells]
        exact hsign
      rw [← ht']
      exact ⟨s.window.cells, [], _, by simp [State.openToken], hsign, hspan⟩
  | openProperty hk hblocks hcurrent hc name hname start stop hspan =>
    refine ⟨hnext, hs.window, hs.cells_sublist, ?_, ?_, by simp [State.openToken, hk]⟩
    · intro _ _ _ _
      exact hblocks
    · intro _ t ht'
      simp only [State.openToken, Option.some.injEq] at ht'
      rw [← ht']
      exact ⟨s.window.cells, [], stop, by simp [State.openToken], hname, hspan⟩
  | rejectBlank hk hblocks hcurrent | rejectContent hk hblocks hcurrent
  | strayBrace hk hcurrent | strayContent hk hcurrent =>
    exact ⟨hnext, Window.sound_empty, hempty, State.coherent_of_none hcurrent hk⟩
  | openBlock hk | openUnclaimed hk =>
    exact ⟨hnext, Window.sound_empty, hempty, State.coherent_of_none rfl hk⟩
  | openWhitespace hk hcurrent hc hblank w hw =>
    -- indentation begins after the last line break, or with the first line
    obtain ⟨hsound, front, hcells, hne⟩ :
        w.Sound ∧ ∃ front, s.window.cells = front ++ w.cells ∧ w.cells ≠ [] := by
      rcases hw with ⟨offset, hbreak, rfl⟩ | ⟨-, -, rfl⟩
      · exact ⟨hs.window.dropBefore offset, hs.window.exists_dropBefore hbreak⟩
      · exact ⟨hs.window, [], rfl, by simp [hs.cells]⟩
    have hsub : w.cells.Sublist s.window.cells := by
      rw [hcells]
      exact List.sublist_append_right _ _
    refine ⟨hnext, hsound, hsub.trans hs.cells_sublist, ?_, ?_, by simp [State.openToken, hk]⟩
    · intro t name ht' hkind
      simp only [State.openToken, Option.some.injEq] at ht'
      rw [← ht'] at hkind
      simp at hkind
    · intro _ t ht'
      simp only [State.openToken, Option.some.injEq] at ht'
      rw [← ht', OpenToken.begins_whitespace_iff rfl]
      constructor
      · intro cell hcell
        have := hs.window.isBlank_iff.1 hblank cell (hsub.subset hcell)
        simp [Cell.isVisible, this]
      · have hstart : w.start? = w.cells.head?.map Cell.position := by
          simp [Window.start?, Window.cells]
        obtain ⟨cell, rest, hw'⟩ := List.exists_cons_of_ne_nil hne
        simp [State.openToken, hstart, hw']
  | inWhitespace hk t hcurrent hkind hc =>
    refine ⟨hnext, hs.window, hs.cells_sublist, hs.coherent.inBlock, ?_, by simp [hk]⟩
    intro _ t' ht'
    rw [hcurrent, Option.some.injEq] at ht'
    subst ht'
    obtain ⟨hblank, hstart⟩ := (OpenToken.begins_whitespace_iff hkind).1
      (hs.coherent.current hk t hcurrent)
    rw [OpenToken.begins_whitespace_iff hkind, hs.cells]
    constructor
    · intro cell hcell
      rcases List.mem_append.1 hcell with hcell | hcell
      · exact hblank cell hcell
      · rw [List.mem_singleton.1 hcell]
        simp [Cell.isVisible, hc]
    · cases hb : s.window.body with
      | nil => simp [hb] at hstart
      | cons first rest => simpa [hb] using hstart
  | _ => simp [Outcome.token?] at ht

/-- After a finished token the character can be offered again, with nothing open before it. -/
theorem Claim.offeredAgain (hs : s.Offered cs c) (h : Claim s c rule outcome s') {t : Token}
    (ht : outcome.token? = some t) : ((s'.complete t).2.pushAgain c).OfferedAgain cs c := by
  obtain ⟨hcurrent, hcomment⟩ := h.eq_none_of_token hs ht
  have hcurrent' : ((s'.complete t).2.pushAgain c).current = none := by
    simp [State.pushAgain, hcurrent]
  have hcomment' : ((s'.complete t).2.pushAgain c).comment = none := by
    simp [State.pushAgain, hcomment]
  have hposition : ((s'.complete t).2.pushAgain c).position = s.position := by
    simp [State.pushAgain, h.position_eq]
  have hnext : ((s'.complete t).2.pushAgain c).next = s.next := by
    simp [State.pushAgain, h.next_eq]
  refine ⟨⟨?_, ?_, ?_, ?_, ?_, State.coherent_of_none hcurrent' hcomment'⟩, rfl,
    hcurrent', hcomment'⟩
  · rw [hposition, hs.position]
  · rw [hposition, hnext, hs.next]
  · exact Window.sound_empty.push _ _
  · rfl
  · exact List.nil_sublist _

theorem Claim.settled_complete (hs : s.Offered cs c) (h : Claim s c rule outcome s') {t : Token}
    (ht : outcome.token? = some t) : (s'.complete t).2.Settled (cs ++ [c]) := by
  obtain ⟨hcurrent, hcomment⟩ := h.eq_none_of_token hs ht
  refine ⟨?_, Window.sound_empty, List.nil_sublist _, State.coherent_of_none ?_ ?_⟩
  · rw [State.next_complete, h.next_eq, hs.next_eq]
  · rw [State.current_complete, hcurrent]
  · rw [State.comment_complete, hcomment]

/-- An open comment lets no character pass. -/
theorem State.Offered.comment_eq_none (hs : s.Offered cs c)
    (hskip : Rule.comment.scan s = (.skip, s)) : s.comment = none := by
  cases hk : s.comment with
  | none => rfl
  | some k =>
    simp only [Rule.scan, hs.last, State.scanComment, hk, State.continueComment] at hskip
    split at hskip
    · next hother => exact absurd rfl hother.2.2
    · split at hskip
      · simp at hskip
      · split at hskip <;> simp at hskip

/-- A character that no rule wants joins the window. Neither a comment nor indentation lets a
character pass, so only declarations and at-rules can be open around it. -/
theorem State.Offered.settled (hs : s.Offered cs c)
    (hskip : ∀ rule ∈ Rule.order.tail, rule.scan s = (.skip, s)) : s.Settled (cs ++ [c]) := by
  have hcomment := hs.comment_eq_none (hskip .comment (by decide))
  have hkind : ∀ t, s.current = some t → t.kind ≠ .whitespace := by
    intro t hcurrent hk
    have hscan := hskip .whitespace (by decide)
    simp only [Rule.scan, hs.last, hcomment, State.scanWhitespace, hcurrent, hk] at hscan
    cases hc : Text.isBlank c <;> simp [hc] at hscan
  refine ⟨hs.next_eq, hs.window, hs.cells_sublist, hs.coherent.inBlock, ?_, by simp [hcomment]⟩
  intro _ t hcurrent
  rw [hs.cells]
  exact (hs.coherent.current hcomment t hcurrent).append (hkind t hcurrent) _

theorem State.OfferedAgain.settled (hs : s.OfferedAgain cs c) : s.Settled (cs ++ [c]) :=
  ⟨hs.next_eq, hs.window, hs.cells_sublist,
    State.coherent_of_none hs.current_eq_none hs.comment_eq_none⟩

end Step

/-! ## A run -/

namespace State

theorem preserves_settled (cs : List Char) (c : Char) :
    Preserves c (fun _ s => s.Offered cs c) (fun _ s => s.OfferedAgain cs c)
      (fun _ s => s.Settled (cs ++ [c])) where
  last hs := hs.last
  first_of_again hs := hs.toOffered
  done_of_again hs := hs.settled
  done_of_skip hs hskip := hs.settled hskip
  done_of_claim hs hclaim ht := hclaim.settled hs ht
  done_of_token hs hclaim ht _ := hclaim.settled_complete hs ht
  again_of_token hs hclaim ht _ := hclaim.offeredAgain hs ht

theorem Settled.scan {s : State} {cs : List Char} (h : s.Settled cs) (c : Char) :
    (s.scan c).2.Settled (cs ++ [c]) :=
  (preserves_settled cs c).scan [] (h.arrive c)

theorem settled_empty : ({} : State).Settled [] :=
  ⟨rfl, Window.sound_empty, List.nil_sublist _, coherent_of_none rfl rfl⟩

theorem after_concat (s : State) (cs : List Char) (c : Char) :
    s.after (cs ++ [c]) = ((s.after cs).scan c).2 := by
  simp [after_append]

theorem itemsOf_concat (s : State) (cs : List Char) (c : Char) :
    s.itemsOf (cs ++ [c]) = s.itemsOf cs ++ ((s.after cs).scan c).1.items := by
  simp [itemsOf_append]

/-- Scanning leaves a settled state after every text. -/
theorem settled_after (cs : List Char) : (State.after {} cs).Settled cs := by
  induction cs using List.reverseRecOn with
  | nil => exact settled_empty
  | append_singleton cs c ih =>
    rw [after_concat]
    exact ih.scan c

/-! ## The end of the source -/

theorem Settled.ordered {s : State} {cs : List Char} (h : s.Settled cs) :
    Cell.Ordered s.window.cells :=
  (Cell.ordered_ofText _ _).sublist h.cells

theorem Settled.stop_le_next {s : State} {cs : List Char} (h : s.Settled cs) {cell : Cell}
    (hcell : cell ∈ s.window.cells) : cell.stop ≤ s.next := by
  rw [h.next]
  exact Cell.stop_le_of_mem_ofText (h.cells.subset hcell)

/-- An open comment began before the next character. -/
theorem Settled.comment_start_lt {s : State} {cs : List Char} (h : s.Settled cs) {k : OpenComment}
    (hk : s.comment = some k) : k.start < s.next := by
  obtain ⟨before, inside, slash, star, hcells, -, -, -, hstart, -, -⟩ := h.coherent.comment k hk
  rw [← hstart]
  exact lt_of_lt_of_le slash.position_lt_stop (h.stop_le_next (by simp [hcells]))

/-- Closing an open comment leaves a settled state without one. -/
theorem Settled.finishComment {s : State} {cs : List Char} (h : s.Settled cs) :
    s.finishComment.2.Settled cs ∧ s.finishComment.2.comment = none := by
  unfold State.finishComment
  split
  · next hk => exact ⟨h, hk⟩
  · next k hk =>
    dsimp only
    split
    · obtain ⟨before, rest, hcells, hcut, -, hbegins⟩ :=
        (h.coherent.comment k hk).truncate (List.append_nil _).symm
      have hsub : before.Sublist s.window.cells := by
        rw [hcells]
        exact List.sublist_append_left _ _
      refine ⟨⟨h.next, h.window.truncate _, ?_, h.coherent.inBlock, ?_, by simp⟩, rfl⟩
      · simpa only [hcut] using hsub.trans h.cells
      · intro _ t hcurrent
        simpa only [hcut] using (hbegins t hcurrent).2
    · next halone =>
      rw [Bool.not_eq_true] at halone
      have hcurrent := ((h.coherent.comment k hk).of_standalone halone).1
      refine ⟨⟨?_, Window.sound_empty, List.nil_sublist _, coherent_of_none ?_ ?_⟩, ?_⟩
      · simpa [clearWindow] using h.next
      · simpa [clearWindow] using hcurrent
      · simp [clearWindow]
      · simp [clearWindow]

end State

end Scan

end Stylesheet
