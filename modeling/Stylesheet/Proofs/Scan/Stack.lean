import Stylesheet.Proofs.Scan.Finished

set_option autoImplicit false

/-! # The open blocks and their headers

Every open block was opened by a brace, and begins with what stands before that brace: with the
selector or at-rule that the brace has finished, or else with text that nothing has claimed, or else
with the brace itself (`BeginsAt`). All of it was pending when the brace came, and so lies behind
the braces of the blocks around (`Stacked`). -/

namespace Stylesheet

/-- The token is one that a block can begin with. -/
def Token.IsHeader (t : Token) : Prop := t.type = .selector ∨ t.type = .atRule

/-- From the beginning of an open block to its brace. -/
def OpenBlock.header (b : OpenBlock) : Span := ⟨b.headerStart, b.start⟩

namespace Scan

/-- The headers of the open blocks, innermost first. -/
def State.headers (s : State) : List Span := s.blocks.map OpenBlock.header

/-! ## Closing blocks -/

section Step

variable {s s' : State} {cs : List Char} {c : Char} {rule : Rule} {outcome : Outcome} {t : Token}

@[simp] theorem State.headers_accept (s : State) (t : Token) :
    (s.accept t).2.headers = s.headers := by
  cases hblocks : s.blocks with
  | nil => simp [State.headers, State.accept, State.acceptTopLevel, hblocks]
  | cons b blocks => simp [State.headers, State.accept, hblocks, OpenBlock.add, OpenBlock.header]

@[simp] theorem State.headers_complete (s : State) (t : Token) :
    (s.complete t).2.headers = s.headers := (s.recordCompleted t).headers_accept t

/-- A finished token closes the innermost block at most. -/
theorem Claim.headers_suffix (h : Claim s c rule outcome s') (hs : s.Offered cs c)
    (ht : outcome.token? = some t) : s'.headers <:+ s.headers := by
  rcases (h.finishes hs ht).2 with ⟨id, content, start, -, hleaf⟩ | ⟨b, blocks, hb, hb', -, -, -⟩
  · rw [State.headers, hleaf.blocks]
    exact List.suffix_refl _
  · rw [State.headers, State.headers, hb, hb']
    exact List.suffix_cons _ _

theorem State.preserves_headers (headers : List Span) (cs : List Char) {c : Char} (hc : c ≠ '{') :
    Preserves c (fun _ s => s.Offered cs c ∧ s.headers <:+ headers)
      (fun _ s => s.OfferedAgain cs c ∧ s.headers <:+ headers)
      (fun _ s => s.headers <:+ headers) where
  last h := h.1.last
  first_of_again h := ⟨h.1.toOffered, h.2⟩
  done_of_again h := h.2
  done_of_skip h _ := h.2
  done_of_claim h hclaim ht := by
    rcases hclaim.blocks_cases ht with hblocks | ⟨hbrace, -⟩
    · rw [State.headers, hblocks]
      exact h.2
    · exact absurd hbrace hc
  done_of_token h hclaim ht _ := by
    rw [headers_complete]
    exact (hclaim.headers_suffix h.1 ht).trans h.2
  again_of_token h hclaim ht _ := by
    refine ⟨hclaim.offeredAgain h.1 ht, List.IsSuffix.trans ?_ h.2⟩
    show (_ : State).headers <:+ _
    exact (headers_complete _ _).symm ▸ hclaim.headers_suffix h.1 ht

end Step

/-! ## Opening a block -/

section Brace

variable {s s' : State} {cs : List Char} {rule : Rule} {outcome : Outcome} {t : Token}

theorem Claim.headers_of_block (h : Claim s '{' .block outcome s') (ht : outcome.token? = none) :
    s'.headers = ⟨s.headerStart, s.position⟩ :: s.headers := by
  cases h with
  | openBlock | openUnclaimed => rfl
  | strayBrace _ _ hc | strayContent _ _ hc => simp at hc
  | closeBlock | closeBlockAfter => simp [Outcome.token?] at ht

theorem State.Offered.position_le {c : Char} (hs : s.Offered cs c) {cell : Cell}
    (hcell : cell ∈ s.window.cells) : cell.position ≤ Position.start.advanceAll cs := by
  rw [← hs.position]
  rw [hs.cells, List.mem_append, List.mem_singleton] at hcell
  rcases hcell with hcell | rfl
  · exact le_of_lt (lt_of_lt_of_le cell.position_lt_stop (hs.stop_le_position hcell))
  · exact le_refl _

/-- Text that nothing has claimed begins in the window. -/
theorem State.Offered.exists_unclaimed {c : Char} (hs : s.Offered cs c) :
    ∃ cell ∈ s.window.cells,
      cell.position = ((Cell.span? s.window.body).map Prod.fst).getD s.position := by
  cases hspan : Cell.span? s.window.body with
  | none => exact ⟨⟨c, s.position⟩, by simp [hs.cells], rfl⟩
  | some span => exact (hs.bodyStop_of_span hspan).1

/-- A brace finishes a token that a block can begin with, unless nothing is visible before it. -/
theorem Claim.isHeader_of_brace (h : Claim s '{' rule (.token t) s') (hs : s.Offered cs '{') :
    t.IsHeader ∨ Cell.span? s.window.body = none := by
  have hcontinues := (h.continues_brace hs rfl).1
  cases h with
  | closeComment => simp [OpenComment.close, Leaf.type] at hcontinues
  | closeAtRule => exact Or.inl (Or.inr rfl)
  | selector => exact Or.inl (Or.inl rfl)
  | closeProperty hk _ _ _ _ _ hc => simp at hc
  | closeBlock hk _ hc => simp at hc
  | closeWhitespace hk o ho hkind => exact Or.inr (hs.span?_of_whitespace hk ho hkind)

/-- The block that is opened after a token begins with the token, or else with the pending text. -/
theorem Claim.headers_reopened (h : Claim s '{' rule (.token t) s') (hs : s.Offered cs '{') :
    ∃ start, (s'.reopened t).headers = ⟨start, s.position⟩ :: s.headers ∧
      (∃ cell ∈ s.window.cells, cell.position = start) ∧
      (t.IsHeader ∧ start = t.start ∨ ¬ t.IsHeader ∧
        start = ((Cell.span? s.window.body).map Prod.fst).getD s.position) := by
  set again := (s'.complete t).2.pushAgain '{'
  have hposition : again.position = s.position := (State.position_complete _ _).trans h.position_eq
  have hheaders : (s'.reopened t).headers = ⟨again.headerStart, s.position⟩ :: s.headers := by
    show ⟨again.headerStart, again.position⟩ :: again.headers = _
    rw [hposition, show again.headers = s'.headers from s'.headers_complete t, State.headers,
      h.blocks_of_brace hs rfl]
    rfl
  have hstart := again.headerStart_eq
  rw [header?_pushAgain, (h.offeredAgain hs rfl).body_eq_nil, hposition] at hstart
  rw [hheaders, hstart]
  by_cases hheader : t.type = .selector ∨ t.type = .atRule
  · rw [if_pos hheader]
    refine ⟨t.start, rfl, ?_, Or.inl ⟨hheader, rfl⟩⟩
    rcases (h.finishes hs rfl).2 with
      ⟨id, content, start, rfl, hleaf⟩ | ⟨b, blocks, -, -, -, -, rfl⟩
    · exact hleaf.begins
    · exact absurd hheader (by simp [OpenBlock.close])
  · have hspan := (h.isHeader_of_brace hs).resolve_left hheader
    rw [if_neg hheader, hspan]
    exact ⟨s.position, rfl, ⟨⟨'{', s.position⟩, by simp [hs.cells], rfl⟩, Or.inr ⟨hheader, rfl⟩⟩

end Brace

/-- The block that the brace after `before` has opened begins at `start`: with the selector or
at-rule that the brace has finished, or else with the pending text, or else at the brace. -/
def BeginsAt (before : List Char) (start : Position) : Prop :=
  let last := State.after {} (before ++ ['{'])
  let tokens := finished (State.itemsOf {} (before ++ ['{'])) last.blocks
  (∃ t ∈ tokens, t.IsHeader ∧ last.finishedId? = some t.id ∧ start = t.start) ∨
    (∀ id, last.finishedId? = some id → ∃ t ∈ tokens, t.id = id ∧ ¬ t.IsHeader) ∧
      start = ((Cell.span? (State.after {} before).window.cells).map Prod.fst).getD
        (Position.start.advanceAll before)

/-- A brace opens no block, or one that begins somewhere in the window. -/
theorem opened (before : List Char) :
    (State.after {} (before ++ ['{'])).headers = (State.after {} before).headers ∨
      ∃ start, (State.after {} (before ++ ['{'])).headers =
          ⟨start, Position.start.advanceAll before⟩ :: (State.after {} before).headers ∧
        (∃ cell ∈ ((State.after {} before).arrive '{').window.cells, cell.position = start) ∧
        BeginsAt before start := by
  have hs := (State.settled_after before).arrive '{'
  have hopening := opening before
  simp only [BeginsAt, State.itemsOf_concat, State.after_concat, ← hs.position]
  generalize ((State.after {} before).scan '{').1.items = newItems at hopening ⊢
  generalize ((State.after {} before).scan '{').2 = last at hopening ⊢
  cases hopening with
  | passes _ hblocks => exact Or.inl (by rw [State.headers, hblocks]; rfl)
  | atOnce outcome _ _ hclaim ht =>
    have hnone := finishedId?_eq_none hclaim.completed_eq hclaim.position_eq
    refine Or.inr ⟨_, hclaim.headers_of_block ht, ?_, Or.inr ⟨by simp [hnone], ?_⟩⟩
    · rw [State.headerStart_eq, State.header?_arrive]
      exact hs.exists_unclaimed
    · rw [State.headerStart_eq, State.header?_arrive]
      rfl
  | afterToken rule t s' hclaim =>
    obtain ⟨start, hheaders, hcell, hbegins⟩ := hclaim.headers_reopened hs
    refine Or.inr ⟨start, hheaders, hcell, ?_⟩
    have hmem := (hclaim.mem_finished_reopened hs (State.itemsOf {} before)).2 (Or.inr rfl)
    rcases hbegins with ⟨hheader, rfl⟩ | ⟨hheader, rfl⟩
    · exact Or.inl ⟨_, hmem, by simpa [Token.IsHeader] using hheader, by simp, by simp⟩
    · refine Or.inr ⟨?_, rfl⟩
      intro id hid
      exact ⟨_, hmem, by simpa using hid, by simpa [Token.IsHeader] using hheader⟩

/-! ## A run -/

/-- Every header begins where its brace has it begin, behind the braces of the blocks around. -/
structure Stacked (cs : List Char) (headers : List Span) : Prop where
  begun : ∀ header ∈ headers, header.start ≤ header.stop ∧ ∃ before after,
    cs = before ++ '{' :: after ∧ Position.start.advanceAll before = header.stop ∧
      BeginsAt before header.start
  apart : headers.Pairwise fun inner outer => outer.stop < inner.start

theorem Stacked.append {cs : List Char} {headers headers' : List Span} (h : Stacked cs headers)
    (hsuffix : headers' <:+ headers) (ds : List Char) : Stacked (cs ++ ds) headers' where
  begun header hheader := by
    obtain ⟨hle, before, after, rfl, hrest⟩ := h.begun header (hsuffix.subset hheader)
    exact ⟨hle, before, after ++ ds, by simp, hrest⟩
  apart := h.apart.sublist hsuffix.sublist

/-- The headers of the open blocks of a run follow one another. -/
theorem stacked_after (cs : List Char) : Stacked cs (State.after {} cs).headers := by
  induction cs using List.reverseRecOn with
  | nil => exact ⟨by simp [State.headers], List.Pairwise.nil⟩
  | append_singleton cs c ih =>
    by_cases hc : c = '{'
    · subst hc
      rcases opened cs with hsame | ⟨start, hheaders, ⟨cell, hcell, rfl⟩, hbegins⟩
      · rw [hsame]
        exact ih.append (List.suffix_refl _) _
      · obtain ⟨hbegun, hapart⟩ := ih.append (List.suffix_refl _) ['{']
        have hle := ((State.settled_after cs).arrive '{').position_le hcell
        rw [hheaders]
        refine ⟨List.forall_mem_cons.2 ⟨⟨hle, cs, [], rfl, rfl, hbegins⟩, hbegun⟩,
          List.pairwise_cons.2 ⟨?_, hapart⟩⟩
        intro outer houter
        obtain ⟨b, hb, rfl⟩ := List.mem_map.1 houter
        exact ((((State.grown_after cs).arrive '{').cells cell hcell).2 b hb).1
    · rw [State.after_concat]
      refine ih.append ?_ _
      exact (State.preserves_headers _ cs hc).scan []
        ⟨(State.settled_after cs).arrive c, List.suffix_refl _⟩

end Scan

end Stylesheet
