import Mathlib.Data.List.Infix
import Stylesheet.Proofs.Scan.Consistency
import Stylesheet.Proofs.Scan.Tiling

set_option autoImplicit false

/-! # The text outside comments

`uncommented` takes out of a text what was scanned inside a comment. It shrinks as well as grows: a
slash counts as text until the star after it opens a comment (`uncommented_of_opened`). What is
pending is at all times the last part of it (`State.Pending`), comments that are still open left
out. So a token that is made of pending characters says what the source says between its start and
its end, without the comments in between. -/

namespace Stylesheet

namespace Text

/-- The end of the text lies in no string and in no parentheses. -/
def isQuiet (cs : List Char) : Bool := !insideString cs && openParens cs == 0

/-- All semicolons of the text stand in strings or in parentheses. -/
def Unterminated (cs : List Char) : Prop :=
  ∀ before after, cs = before ++ ';' :: after → isQuiet before = false

theorem Unterminated.of_append {cs ds : List Char} (h : Unterminated (cs ++ ds)) :
    Unterminated cs := by
  rintro before after rfl
  exact h before (after ++ ds) (by simp)

theorem Unterminated.concat {cs : List Char} (h : Unterminated cs) {c : Char}
    (hc : c = ';' → isQuiet cs = false) : Unterminated (cs ++ [c]) := by
  intro before after hsplit
  rcases List.eq_nil_or_concat after with rfl | ⟨more, last, rfl⟩
  · obtain ⟨rfl, hlast⟩ := List.append_inj' hsplit rfl
    exact hc (List.cons.inj hlast).1
  · rw [List.concat_eq_append, ← List.cons_append, ← List.append_assoc] at hsplit
    exact h before more (List.append_inj' hsplit rfl).1

theorem unterminated_of_not_mem {cs : List Char} (h : ';' ∉ cs) : Unterminated cs := by
  rintro before after rfl
  simp at h

end Text

namespace Scan

/-! ## Commented characters -/

/-- Whether a position lies in a comment can be found out from the states along the run. -/
theorem commented_iff {cs : List Char} {p : Position} :
    Commented cs p ↔ ∃ n ∈ List.range (cs.length + 1),
      (State.after {} (cs.take n)).comment.any
        (fun k => k.start ≤ p ∧ p < Position.start.advanceAll (cs.take (n + 1))) = true := by
  constructor
  · rintro ⟨before, after, k, rfl, hk, hle, hlt⟩
    refine ⟨before.length, List.mem_range.2 (by simp only [List.length_append]; omega), ?_⟩
    rw [List.take_left, hk, List.take_length_add_append, Option.any_some, decide_eq_true_eq]
    exact ⟨hle, hlt⟩
  · rintro ⟨n, -, hn⟩
    obtain ⟨k, hk, hspan⟩ := (Option.any_eq_true _ _).1 hn
    rw [List.take_add, decide_eq_true_eq] at hspan
    exact ⟨cs.take n, cs.drop n, k, (List.take_append_drop n cs).symm, hk, hspan⟩

instance (cs : List Char) (p : Position) : Decidable (Commented cs p) :=
  decidable_of_iff _ commented_iff.symm

/-- The characters of a text that were not scanned inside a comment. -/
def uncommented (cs : List Char) : List Cell :=
  (Cell.ofText .start cs).filter fun cell => !decide (Commented cs cell.position)

theorem ordered_uncommented (cs : List Char) : Cell.Ordered (uncommented cs) :=
  (Cell.ordered_ofText _ _).filter _

/-- One more character hides what the comment holds that was open before it, and what the one
holds that is open after it. -/
theorem commented_concat_iff {cs : List Char} {c : Char} {p : Position} :
    Commented (cs ++ [c]) p ↔ Commented cs p ∨
      ∃ k, ((State.after {} cs).comment = some k ∨
        (State.after {} (cs ++ [c])).comment = some k) ∧
        k.start ≤ p ∧ p < Position.start.advanceAll (cs ++ [c]) := by
  constructor
  · rintro ⟨before, after, k, hsplit, hk, hle, hlt⟩
    rcases List.eq_nil_or_concat after with rfl | ⟨more, last, rfl⟩
    · rw [List.append_nil] at hsplit
      subst hsplit
      exact Or.inr ⟨k, Or.inr hk, hle, by simpa using hlt⟩
    · rw [List.concat_eq_append, ← List.append_assoc] at hsplit
      obtain ⟨rfl, hlast⟩ := List.append_inj' hsplit rfl
      cases more with
      | nil => exact Or.inr ⟨k, Or.inl (by simpa using hk), hle, by simpa [hlast] using hlt⟩
      | cons a more => exact Or.inl ⟨before, a :: more, k, rfl, hk, hle, by simpa using hlt⟩
  · rintro (h | ⟨k, hk | hk, hle, hlt⟩)
    · exact h.concat c
    · exact ⟨cs, [c], k, rfl, hk, hle, by simpa using hlt⟩
    · exact ⟨cs ++ [c], [], k, by simp, hk, hle, by simpa using hlt⟩

section Uncommented

variable {cs : List Char} {c : Char}

/-- A text and one more character, as far as one can tell at the characters of the text. -/
theorem uncommented_concat_eq (V : List Cell)
    (hV : (Cell.ofText .start cs).filter
      (fun cell => !decide (Commented (cs ++ [c]) cell.position)) = V)
    (hc : Commented (cs ++ [c]) (Position.start.advanceAll cs)) : uncommented (cs ++ [c]) = V := by
  rw [uncommented, Cell.ofText_append, Cell.ofText_singleton, List.filter_append, hV]
  simp [hc]

/-- Inside a comment nothing is added. -/
theorem uncommented_of_comment {k : OpenComment} (hk : (State.after {} cs).comment = some k)
    (hk' : (State.after {} (cs ++ [c])).comment = none ∨
      (State.after {} (cs ++ [c])).comment = some k) :
    uncommented (cs ++ [c]) = uncommented cs := by
  have hlt := (State.settled_after cs).comment_start_lt hk
  rw [(State.settled_after cs).next] at hlt
  refine uncommented_concat_eq _ (List.filter_congr ?_) ?_
  · intro cell hcell
    have hbefore : cell.position < Position.start.advanceAll cs :=
      lt_of_lt_of_le cell.position_lt_stop (Cell.stop_le_of_mem_ofText hcell)
    rw [Bool.not_inj_iff, decide_eq_decide, commented_concat_iff, or_iff_left_iff_imp]
    rintro ⟨l, hl, hle, -⟩
    obtain rfl : l = k := by
      rcases hl with hl | hl
      · simpa [hk] using hl.symm
      · rcases hk' with hk' | hk'
        · simp [hk'] at hl
        · simpa [hk'] using hl.symm
    exact ⟨cs, [], l, by simp, hk, hle, by simpa using hbefore⟩
  · refine commented_concat_iff.2 (Or.inr ⟨k, Or.inl hk, le_of_lt hlt, ?_⟩)
    rw [Position.advanceAll_append]
    exact Position.lt_advance _ c

/-- Outside comments the character is added. -/
theorem uncommented_of_none (hk : (State.after {} cs).comment = none)
    (hk' : (State.after {} (cs ++ [c])).comment = none) :
    uncommented (cs ++ [c]) = uncommented cs ++ [⟨c, Position.start.advanceAll cs⟩] := by
  have hiff (p : Position) : Commented (cs ++ [c]) p ↔ Commented cs p := by
    rw [commented_concat_iff]
    simp [hk, hk']
  have hlast : ¬ Commented cs (Position.start.advanceAll cs) := by
    rintro ⟨before, after, k, rfl, hk'', -, hlt⟩
    cases after with
    | nil => simp at hlt
    | cons a after =>
      have hle := Position.le_advanceAll (Position.start.advanceAll (before ++ [a])) after
      rw [← Position.advanceAll_append, List.append_assoc] at hle
      exact absurd (lt_of_lt_of_le hlt hle) (lt_irrefl _)
  rw [uncommented, Cell.ofText_append, Cell.ofText_singleton, List.filter_append]
  simp only [hiff]
  simp [uncommented, hlast]

/-- The star that opens a comment takes the slash before it back. -/
theorem uncommented_of_opened {k : OpenComment} {V : List Cell} {slash : Cell}
    (hk : (State.after {} cs).comment = none)
    (hk' : (State.after {} (cs ++ [c])).comment = some k) (hV : uncommented cs = V ++ [slash])
    (hslash : slash.position = k.start) : uncommented (cs ++ [c]) = V := by
  have hordered := ordered_uncommented cs
  rw [hV] at hordered
  have hlt : k.start < Position.start.advanceAll cs := by
    have hmem : slash ∈ uncommented cs := by simp [hV]
    rw [← hslash]
    exact lt_of_lt_of_le slash.position_lt_stop
      (Cell.stop_le_of_mem_ofText (List.mem_filter.1 hmem).1)
  have hend : Position.start.advanceAll cs < Position.start.advanceAll (cs ++ [c]) := by
    rw [Position.advanceAll_append]
    exact Position.lt_advance _ c
  refine uncommented_concat_eq _ ?_
    (commented_concat_iff.2 (Or.inr ⟨k, Or.inr hk', le_of_lt hlt, hend⟩))
  have hfilter : (Cell.ofText .start cs).filter
      (fun cell => !decide (Commented (cs ++ [c]) cell.position)) =
      (uncommented cs).filter fun cell => decide (cell.position < k.start) := by
    rw [uncommented, List.filter_filter]
    refine List.filter_congr ?_
    intro cell hcell
    have hbefore : cell.position < Position.start.advanceAll (cs ++ [c]) :=
      lt_of_lt_of_le cell.position_lt_stop
        (le_trans (Cell.stop_le_of_mem_ofText hcell) (le_of_lt hend))
    have hiff : Commented (cs ++ [c]) cell.position ↔
        Commented cs cell.position ∨ k.start ≤ cell.position := by
      rw [commented_concat_iff]
      simp only [hk, hk', reduceCtorEq, false_or, Option.some.injEq, exists_eq_left', hbefore,
        and_true]
    rw [Bool.eq_iff_iff]
    simp [hiff, and_comm]
  rw [hfilter, hV, List.filter_append, List.filter_eq_self.2, List.filter_eq_nil_iff.2,
    List.append_nil]
  · simp [hslash]
  · intro cell hcell
    have hle := (List.pairwise_append.1 hordered).2.2 cell hcell slash (by simp)
    rw [decide_eq_true_eq, ← hslash]
    exact lt_of_lt_of_le cell.position_lt_stop hle

end Uncommented

/-! ## What is pending -/

/-- The cells are the last ones of `V`, the text outside comments. Unless there is visible text
among them, nothing has been cut out of them: they are the last ones of `W`, the whole text. No
semicolon among them has ended the open token. -/
structure State.Shows (s : State) (V W cells : List Cell) : Prop where
  shown : cells <:+ V
  joined : (∃ cell ∈ cells, cell.isVisible = true) ∨ cells <:+ W
  unterminated : ∀ t, s.current = some t → t.kind ≠ .whitespace →
    Text.Unterminated (Cell.text cells)

/-- A comment with the given content so far has been opened in the text, at a slash and a star that
have nothing but comments between them. -/
def OpenedIn (cs : List Char) (start : Position) (content : List Char) : Prop :=
  ∃ front skipped, cs = front ++ '/' :: skipped ++ '*' :: content ∧
    Position.start.advanceAll front = start ∧
    ∀ cell ∈ Cell.ofText (Position.start.advanceAll (front ++ ['/'])) skipped,
      Commented (front ++ '/' :: skipped) cell.position

theorem OpenedIn.concat {cs content : List Char} {start : Position} (h : OpenedIn cs start content)
    (c : Char) : OpenedIn (cs ++ [c]) start (content ++ [c]) := by
  obtain ⟨front, skipped, rfl, hstart, hskipped⟩ := h
  exact ⟨front, skipped, by simp, hstart, hskipped⟩

section Step

variable {V W old : List Cell} {s s' : State} {cs : List Char} {c : Char} {rule : Rule}
  {outcome : Outcome} {k : OpenComment}

theorem State.shows_nil (hcurrent : s.current = none) : s.Shows V W [] where
  shown := List.nil_suffix
  joined := Or.inr List.nil_suffix
  unterminated := by simp [hcurrent]

/-- A semicolon that no rule wants stands in a string or in parentheses. -/
theorem State.Offered.isQuiet_of_skip (hs : s.Offered cs ';') (hk : s.comment = none)
    (hskip : ∀ rule ∈ Rule.order.tail, rule.scan s = (.skip, s)) {t : OpenToken}
    (hcurrent : s.current = some t) (hkind : t.kind ≠ .whitespace) :
    Text.isQuiet s.bodyText = false := by
  by_contra hquiet
  rw [Bool.not_eq_false, Text.isQuiet, Bool.and_eq_true, Bool.not_eq_true', beq_iff_eq] at hquiet
  cases hkind' : t.kind with
  | whitespace => exact hkind hkind'
  | atRule =>
    have hscan := hskip .atRule (by decide)
    simp [Rule.scan, hs.last, hk, scanAtRule, hcurrent, hkind', closeAtRule, hquiet] at hscan
  | property name =>
    have hblocks := hs.coherent.inBlock t name hcurrent hkind'
    have hscan := hskip .property (by decide)
    simp [Rule.scan, hs.last, hk, scanProperty, hblocks, hcurrent, hkind', closeProperty,
      hquiet] at hscan

/-- The character joins what is pending. -/
theorem State.Offered.shows (hs : s.Offered cs c) (h : s.Shows V W s.window.body)
    (hc : ∀ t, s'.current = some t → t.kind ≠ .whitespace → Text.Unterminated s.window.text) :
    s'.Shows (V ++ [⟨c, Position.start.advanceAll cs⟩]) (W ++ [⟨c, Position.start.advanceAll cs⟩])
      s.window.cells := by
  have hcells := hs.cells
  rw [hs.position] at hcells
  refine ⟨?_, ?_, hc⟩
  · rw [hcells]
    exact List.suffix_append_self_iff.2 h.shown
  · rw [hcells]
    rcases h.joined with ⟨cell, hcell, hvisible⟩ | hsuffix
    · exact Or.inl ⟨cell, List.mem_append_left _ hcell, hvisible⟩
    · exact Or.inr (List.suffix_append_self_iff.2 hsuffix)

theorem ne_semicolon_of_allBlank {text : List Char} (h : Text.allBlank text = true) :
    ';' ∉ text := by
  intro hmem
  exact absurd (List.all_eq_true.1 h ';' hmem) (by decide)

/-- What opens a token has no semicolon in it. -/
theorem unterminated_of_isAtSign {text : List Char} (h : Payload.isAtSign text = true) :
    Text.Unterminated text := by
  obtain ⟨front, rfl⟩ := List.getLast?_eq_some_iff.1 (getLast?_of_isAtSign h)
  have hblank := ne_semicolon_of_allBlank (allBlank_of_isAtSign h)
  exact Text.unterminated_of_not_mem (by simp [hblank])

theorem unterminated_of_declarationName? {text : List Char} {name : String}
    (h : Payload.declarationName? text = some name) : Text.Unterminated text := by
  obtain ⟨blanks, gap, rfl, hblanks, hgap⟩ := exists_of_declarationName? h
  have hname : ';' ∉ name.toList := by
    intro hmem
    exact absurd (isNameChar_of_declarationName? h hmem) (by decide)
  refine Text.unterminated_of_not_mem ?_
  simp [ne_semicolon_of_allBlank hblanks, ne_semicolon_of_allBlank hgap, hname]

/-- A claim outside comments keeps what is pending in line with the text, or opens a comment at a
slash that was pending before. -/
def State.ShowsAfter (V W old : List Cell) (cell : Cell) (s : State) : Prop :=
  (s.comment = none → s.Shows (V ++ [cell]) (W ++ [cell]) s.window.cells) ∧
  ∀ k, s.comment = some k → cell.char = '*' ∧ ∃ before slash,
    s.window.cells = before ++ [slash, cell] ∧ slash.char = '/' ∧ slash.position = k.start ∧
    slash ∈ old ∧ Text.byteSize (Cell.text before) = k.offset ∧ before ++ [slash] <:+ V ∧
    ∀ t, s.current = some t → Text.Unterminated (Cell.text before)

theorem State.showsAfter_of_empty (hcells : s.window.cells = []) (hcurrent : s.current = none)
    (hk : s.comment = none) (cell : Cell) : s.ShowsAfter V W old cell := by
  refine ⟨fun _ => ?_, by simp [hk]⟩
  rw [hcells]
  exact State.shows_nil hcurrent

theorem Claim.showsAfter (h : Claim s c rule outcome s') (hs : s.Offered cs c)
    (hk : s.comment = none) (hshows : s.Shows V W s.window.body) (hold : s.window.body ⊆ old)
    (ht : outcome.token? = none) : s'.ShowsAfter V W old ⟨c, Position.start.advanceAll cs⟩ := by
  cases h with
  | inComment k hk' | stripComment k hk' => simp [hk] at hk'
  | openComment _ star slash before hrecent hstar hslash =>
    refine ⟨by simp [State.openComment], ?_⟩
    intro k hk'
    simp only [State.openComment, Option.some.injEq] at hk'
    subst hk'
    have hbody : s.window.body = before.reverse ++ [slash] := by simp [Window.body, hrecent]
    have hlast : star = ⟨c, Position.start.advanceAll cs⟩ := by
      have hcells := hs.cells
      simp only [Window.cells, hbody, hrecent, List.reverse_cons] at hcells
      rw [← hs.position]
      exact List.singleton_inj.1 (List.append_inj' hcells rfl).2
    subst hlast
    refine ⟨hstar, before.reverse, slash, by simp [State.openComment, Window.cells, hrecent],
      hslash, rfl, hold (by simp [hbody]), byteSize_of_opening hs.window hrecent hstar hslash,
      hbody ▸ hshows.shown, ?_⟩
    intro t hcurrent
    have hbegins := hs.coherent.current hk t hcurrent
    rw [hbody] at hbegins
    have hunterminated := hshows.unterminated t hcurrent (hbegins.of_append_slash hslash).1
    rw [hbody, Cell.text, List.map_append] at hunterminated
    exact hunterminated.of_append
  | openAtRule _ hcurrent hc hsign =>
    exact ⟨fun _ => hs.shows hshows fun _ _ _ => unterminated_of_isAtSign hsign,
      by simp [State.openToken, hk]⟩
  | openProperty _ hblocks hcurrent hc name hname start stop hspan =>
    exact ⟨fun _ => hs.shows hshows fun _ _ _ => unterminated_of_declarationName? hname,
      by simp [State.openToken, hk]⟩
  | rejectBlank _ hblocks hcurrent | rejectContent _ hblocks hcurrent
  | strayBrace _ hcurrent | strayContent _ hcurrent =>
    refine State.showsAfter_of_empty ?_ ?_ ?_ _
    · rfl
    · exact hcurrent
    · exact hk
  | openBlock | openUnclaimed =>
    refine State.showsAfter_of_empty ?_ ?_ ?_ _
    · rfl
    · rfl
    · exact hk
  | openWhitespace _ hcurrent hc hblank w hw =>
    have hsuffix : w.cells <:+ s.window.cells := by
      rcases hw with ⟨offset, hbreak, rfl⟩ | ⟨-, -, rfl⟩
      · obtain ⟨front, hcells, -⟩ := hs.window.exists_dropBefore hbreak
        exact ⟨front, hcells.symm⟩
      · exact List.suffix_rfl
    have hall : (s.openToken .whitespace s.position).Shows _ _ _ :=
      hs.shows hshows (by simp [State.openToken])
    refine ⟨fun _ => ⟨hsuffix.trans hall.shown, Or.inr ?_, by simp [State.openToken]⟩,
      by simp [State.openToken, hk]⟩
    rcases hall.joined with ⟨cell, hcell, hvisible⟩ | hjoined
    · simp [Cell.isVisible, hs.window.isBlank_iff.1 hblank cell hcell] at hvisible
    · exact hsuffix.trans hjoined
  | inWhitespace _ t hcurrent hkind hc =>
    refine ⟨fun _ => hs.shows hshows ?_, by simp [hk]⟩
    intro t' ht' hkind'
    rw [hcurrent, Option.some.injEq] at ht'
    exact absurd (ht' ▸ hkind) hkind'
  | _ => simp [Outcome.token?] at ht

/-- What a comment leaves of the window when it ends. -/
def State.ShowsAround (V : List Cell) (k : OpenComment) (current : Option OpenToken)
    (cells : List Cell) (content : List Char) : Prop :=
  ∃ before slash star inside, cells = before ++ slash :: star :: inside ∧
    Text.byteSize (Cell.text before) = k.offset ∧ before <:+ V ∧ Cell.text inside = content ∧
    ∀ t, current = some t → Text.Unterminated (Cell.text before)

/-- Cutting the window at a comment among other text leaves the text before it. Something visible
stands there, or the comment would stand alone. -/
theorem State.ShowsAround.truncate {cells more : List Cell} {content : List Char} {w : Window}
    (h : State.ShowsAround V k s.current cells content) (hk : k.Interrupts s.current cells)
    (hembedded : k.embedded = true) (hw : w.cells = cells ++ more)
    (hcurrent : s'.current = s.current) :
    s'.Shows V W (w.truncate k.offset).cells := by
  obtain ⟨before, slash, star, inside, hcells, hsize, hshown, -, hunterminated⟩ := h
  obtain ⟨before', inside', slash', star', hcells', -, -, hsize', -, hembedded', hbegins⟩ := hk
  obtain ⟨rfl, -⟩ := Text.append_inj_of_byteSize (hcells.symm.trans hcells')
    (hsize.trans hsize'.symm)
  have hsplit : w.cells = before ++ (slash :: star :: inside ++ more) := by
    rw [hw, hcells, List.append_assoc]
  rw [Window.cells_truncate hsplit hsize]
  refine ⟨hshown, Or.inl ?_, fun t ht _ => hunterminated t (hcurrent ▸ ht)⟩
  cases ht : s.current with
  | some t =>
    obtain ⟨hkind, hbefore⟩ := hbegins t ht
    obtain ⟨stop, hspan⟩ := hbefore.span hkind
    obtain ⟨first, hfirst, hvisible, -⟩ := Cell.exists_position_eq_start hspan
    exact ⟨first, hfirst, hvisible⟩
  | none =>
    rw [hembedded, ht] at hembedded'
    simpa [Text.allBlank, Cell.isVisible] using hembedded'

/-- A claim inside a comment keeps what is around it. -/
theorem Claim.showsAround (h : Claim s c rule outcome s') (hs : s.Offered cs c)
    (hk : s.comment = some k) {content : List Char}
    (hshows : State.ShowsAround V k s.current s.window.body content)
    (ht : outcome.token? = none) :
    (s'.comment = none → s'.Shows V W s'.window.cells) ∧
    ∀ k', s'.comment = some k' → k' = k ∧
      State.ShowsAround V k s'.current s'.window.cells (content ++ [c]) := by
  cases h with
  | inComment k' hk' =>
    obtain ⟨before, slash, star, inside, hbody, hsize, hshown, hcontent, hunterminated⟩ := hshows
    refine ⟨by simp [hk], ?_⟩
    intro l hl
    rw [hk, Option.some.injEq] at hl
    refine ⟨hl.symm, before, slash, star, inside ++ [⟨c, s.position⟩], ?_, hsize, hshown, ?_,
      hunterminated⟩
    · rw [hs.cells, hbody]
      simp
    · simp [← hcontent]
  | stripComment k' hk' _ _ hembedded =>
    rw [hk, Option.some.injEq] at hk'
    subst hk'
    exact ⟨fun _ => hshows.truncate (hs.coherent.comment k hk) hembedded hs.cells rfl, by simp⟩
  | openComment hk' | closeAtRule hk' | openAtRule hk' | selector hk' | openProperty hk'
  | closeProperty hk' | rejectBlank hk' | rejectContent hk' | openBlock hk' | openUnclaimed hk'
  | closeBlock hk' | closeBlockAfter hk' | strayBrace hk' | strayContent hk'
  | openWhitespace hk' | inWhitespace hk' | closeWhitespace hk' => simp [hk] at hk'
  | closeComment => simp [Outcome.token?] at ht

end Step

/-! ## A run -/

namespace State

theorem preserves_shows (V W old : List Cell) (cs : List Char) (c : Char) :
    Preserves c
      (fun _ s => s.Offered cs c ∧ s.comment = none ∧ s.Shows V W s.window.body ∧
        s.window.body ⊆ old)
      (fun _ s => s.OfferedAgain cs c)
      (fun _ s => s.ShowsAfter V W old ⟨c, Position.start.advanceAll cs⟩) where
  last h := h.1.last
  first_of_again h := by
    rw [h.body_eq_nil]
    exact ⟨h.toOffered, h.comment_eq_none, shows_nil h.current_eq_none, List.nil_subset _⟩
  done_of_again h := by
    refine ⟨fun _ => ?_, by simp [h.comment_eq_none]⟩
    refine h.toOffered.shows ?_ (by simp [h.current_eq_none])
    rw [h.body_eq_nil]
    exact shows_nil h.current_eq_none
  done_of_skip h hskip := by
    refine ⟨fun _ => h.1.shows h.2.2.1 ?_, by simp [h.2.1]⟩
    intro t hcurrent hkind
    have htext := (h.2.2.1.unterminated t hcurrent hkind).concat (c := c) (by
      rintro rfl
      exact h.1.isQuiet_of_skip h.2.1 hskip hcurrent hkind)
    rw [Window.text, h.1.cells, Cell.text, List.map_append]
    exact htext
  done_of_claim h hclaim ht := hclaim.showsAfter h.1 h.2.1 h.2.2.1 h.2.2.2 ht
  done_of_token h hclaim ht _ := by
    obtain ⟨hcurrent, hcomment⟩ := hclaim.eq_none_of_token h.1 ht
    exact showsAfter_of_empty rfl (by simpa using hcurrent) (by simpa using hcomment) _
  again_of_token h hclaim ht _ := hclaim.offeredAgain h.1 ht

theorem preserves_showsAround (V W : List Cell) (k : OpenComment) (content cs : List Char)
    (c : Char) :
    Preserves c
      (fun _ s => s.Offered cs c ∧ s.comment = some k ∧
        ShowsAround V k s.current s.window.body content)
      (fun _ _ => False)
      (fun _ s => (s.comment = none → s.Shows V W s.window.cells) ∧
        ∀ k', s.comment = some k' → k' = k ∧
          ShowsAround V k s.current s.window.cells (content ++ [c])) where
  last h := h.1.last
  first_of_again := False.elim
  done_of_again := False.elim
  done_of_skip h hskip := by simp [h.1.comment_eq_none (hskip .comment (by decide))] at h
  done_of_claim h hclaim ht := hclaim.showsAround h.1 h.2.1 h.2.2 ht
  done_of_token h hclaim ht _ := by
    obtain ⟨hcurrent, hcomment⟩ := hclaim.eq_none_of_token h.1 ht
    exact ⟨fun _ => shows_nil (by simpa using hcurrent), by simp [hcomment]⟩
  again_of_token h hclaim ht hcontinues := by
    cases hclaim with
    | closeComment =>
      simp only [Outcome.token?, Option.some.injEq] at ht
      simp [← ht, OpenComment.close, Leaf.type] at hcontinues
    | closeAtRule hk | selector hk | closeProperty hk | closeBlock hk | closeBlockAfter hk
    | closeWhitespace hk => simp [h.2.1] at hk
    | _ => simp [Outcome.token?] at ht

/-- The cells, which are those the last rule has looked at, are the end of the text outside
comments. -/
structure Pending (s : State) (cs : List Char) (cells : List Cell) : Prop where
  plain : s.comment = none → s.Shows (uncommented cs) (Cell.ofText .start cs) cells
  around : ∀ k, s.comment = some k → ∃ content,
    ShowsAround (uncommented cs) k s.current cells content ∧ OpenedIn cs k.start content

theorem pending_nil {s : State} (hcurrent : s.current = none) (hk : s.comment = none)
    (cs : List Char) : s.Pending cs [] where
  plain _ := shows_nil hcurrent
  around := by simp [hk]

/-- The star that opens a comment follows its slash, or comments that follow it. -/
theorem openedIn_of_star {cs : List Char} {V : List Cell} {slash : Cell}
    (hV : uncommented cs = V ++ [slash]) (hslash : slash.char = '/') :
    OpenedIn (cs ++ ['*']) slash.position [] := by
  have hslash' : slash ∈ uncommented cs := by simp [hV]
  obtain ⟨front, skipped, hcs, hposition⟩ := Cell.mem_ofText_iff.1 (List.mem_filter.1 hslash').1
  rw [hslash] at hcs
  have hstop : Position.start.advanceAll (front ++ ['/']) = slash.stop := by
    rw [Position.advanceAll_append, ← hposition, Cell.stop, hslash]
    rfl
  refine ⟨front, skipped, by simp [hcs], hposition.symm, ?_⟩
  intro cell hcell
  by_contra hcommented
  -- else it would be text outside comments, but the slash is the last of that
  have hbehind : slash.stop ≤ cell.position := by
    rw [← hstop]
    exact Cell.le_position_of_mem_ofText hcell
  have hmem : cell ∈ V ++ [slash] := by
    rw [← hV, uncommented, List.mem_filter, hcs]
    refine ⟨?_, by simp [hcommented]⟩
    rw [List.append_cons, Cell.ofText_append]
    exact List.mem_append_right _ hcell
  have hordered : Cell.Ordered (V ++ [slash]) := hV ▸ ordered_uncommented cs
  have hle : cell.stop ≤ slash.stop := hordered.stop_le_last (by simp) hmem
  exact absurd (lt_of_lt_of_le cell.position_lt_stop hle) (not_lt.2 hbehind)

section Run

variable {cs : List Char} {c : Char} {k : OpenComment}

theorem Pending.showsAfter (h : (State.after {} cs).Pending cs (State.after {} cs).window.cells)
    (hk : (State.after {} cs).comment = none) (c : Char) :
    (State.after {} (cs ++ [c])).ShowsAfter (uncommented cs) (Cell.ofText .start cs)
      (State.after {} cs).window.cells ⟨c, Position.start.advanceAll cs⟩ := by
  obtain ⟨hshown, hjoined, hunterminated⟩ := h.plain hk
  rw [after_concat]
  exact (preserves_shows _ _ _ cs c).scan []
    ⟨(settled_after cs).arrive c, hk, ⟨hshown, hjoined, hunterminated⟩, List.Subset.refl _⟩

theorem Pending.showsAround (h : (State.after {} cs).Pending cs (State.after {} cs).window.cells)
    (hk : (State.after {} cs).comment = some k) (c : Char) :
    ∃ content, OpenedIn cs k.start content ∧
      ((State.after {} (cs ++ [c])).comment = none →
        (State.after {} (cs ++ [c])).Shows (uncommented cs) (Cell.ofText .start (cs ++ [c]))
          (State.after {} (cs ++ [c])).window.cells) ∧
      ∀ k', (State.after {} (cs ++ [c])).comment = some k' → k' = k ∧
        ShowsAround (uncommented cs) k (State.after {} (cs ++ [c])).current
          (State.after {} (cs ++ [c])).window.cells (content ++ [c]) := by
  obtain ⟨content, haround, hopened⟩ := h.around k hk
  refine ⟨content, hopened, ?_⟩
  rw [after_concat]
  exact (preserves_showsAround _ _ k content cs c).scan []
    ⟨(settled_after cs).arrive c, hk, haround⟩

/-- After every text, what is pending is the end of the text outside comments. -/
theorem pending_after (cs : List Char) :
    (State.after {} cs).Pending cs (State.after {} cs).window.cells := by
  induction cs using List.reverseRecOn with
  | nil => exact pending_nil rfl rfl []
  | append_singleton cs c ih =>
    cases hk : (State.after {} cs).comment with
    | none =>
      obtain ⟨hplain, hopened⟩ := ih.showsAfter hk c
      refine ⟨?_, ?_⟩
      · intro hk'
        rw [uncommented_of_none hk hk', Cell.ofText_append, Cell.ofText_singleton]
        exact hplain hk'
      · intro k hk'
        obtain ⟨hc, before, slash, hcells, hslash, hstart, -, hsize, ⟨V, hV⟩, hunterminated⟩ :=
          hopened k hk'
        simp only at hc
        subst hc
        rw [← List.append_assoc] at hV
        refine ⟨[], ⟨before, slash, _, [], hcells, hsize, ?_, rfl, hunterminated⟩, ?_⟩
        · rw [uncommented_of_opened hk hk' hV.symm hstart]
          exact List.suffix_append _ _
        · rw [← hstart]
          exact openedIn_of_star hV.symm hslash
    | some k =>
      obtain ⟨content, hopened, hplain, hstill⟩ := ih.showsAround hk c
      have hsame : uncommented (cs ++ [c]) = uncommented cs := by
        refine uncommented_of_comment hk ?_
        cases hk' : (State.after {} (cs ++ [c])).comment with
        | none => exact Or.inl rfl
        | some k' => exact Or.inr (by rw [(hstill k' hk').1])
      refine ⟨?_, ?_⟩
      · rw [hsame]
        exact hplain
      · intro k' hk'
        obtain ⟨rfl, haround'⟩ := hstill k' hk'
        rw [hsame]
        exact ⟨content ++ [c], haround', hopened.concat c⟩

/-- Only a star opens a comment. -/
theorem comment_eq_none_of_ne (hk : (State.after {} cs).comment = none) (hc : c ≠ '*') :
    (State.after {} (cs ++ [c])).comment = none := by
  refine Option.eq_none_iff_forall_ne_some.2 ?_
  intro k hk'
  exact hc (((pending_after cs).showsAfter hk c).2 k hk').1

/-- A comment that is open has been open before the last character, or begins at a slash that was
pending then. -/
theorem comment_cases (hk' : (State.after {} (cs ++ [c])).comment = some k) :
    (State.after {} cs).comment = some k ∨
      ∃ slash ∈ (State.after {} cs).window.cells, slash.position = k.start := by
  cases hk : (State.after {} cs).comment with
  | none =>
    obtain ⟨-, -, slash, -, -, hstart, hold, -⟩ := ((pending_after cs).showsAfter hk c).2 k hk'
    exact Or.inr ⟨slash, hold, hstart⟩
  | some k₀ =>
    obtain ⟨content, -, -, hstill⟩ := (pending_after cs).showsAround hk c
    exact Or.inl (by rw [(hstill k hk').1])

end Run

end State

end Scan

end Stylesheet
