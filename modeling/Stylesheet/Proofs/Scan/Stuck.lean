import Mathlib.Data.List.TakeWhile
import Stylesheet.Proofs.Scan.Coherence
import Stylesheet.Proofs.Token

set_option autoImplicit false

/-! # Text that can only be reported

Outside all blocks a semicolon or a brace that stays in the pending text, with no token open, is
part of no selector. Whatever follows, the text is then reported: at the next brace, or at the end
of the source. `State.Stuck` says that a run has come to this, and `State.Reported.finish` that it
does not end without a finding. -/

namespace Stylesheet

/-- A character that ends a selector, a declaration or a block. -/
def Text.IsEnd (c : Char) : Prop := c = ';' ∨ c = '{' ∨ c = '}'

theorem Text.IsEnd.isAllowed_eq_false {c : Char} (h : IsEnd c) : Selector.isAllowed c = false := by
  rcases h with rfl | rfl | rfl <;> decide

theorem Text.IsEnd.isBlank_eq_false {c : Char} (h : IsEnd c) : isBlank c = false := by
  rcases h with rfl | rfl | rfl <;> decide

/-- Trimming takes nothing away but blanks. -/
theorem Text.mem_trim {c : Char} {cs : List Char} (hc : isBlank c = false) (h : c ∈ cs) :
    c ∈ trim cs := by
  have hdrop {ds : List Char} (hmem : c ∈ ds) : c ∈ ds.dropWhile isBlank := by
    rw [← List.takeWhile_append_dropWhile (p := isBlank) (l := ds)] at hmem
    rcases List.mem_append.1 hmem with hmem | hmem
    · simp [List.mem_takeWhile_imp hmem] at hc
    · exact hmem
  have hstart : c ∈ (trimStart cs).reverse := List.mem_reverse.2 (hdrop h)
  exact List.mem_reverse.2 (hdrop hstart)

namespace Scan

/-- The cells hold a character that nothing but a finding can come of, before a comment if one is
open. -/
structure State.Stuck (s : State) (cells : List Cell) : Prop where
  blocks : s.blocks = []
  current : s.current = none
  pending : ∃ before after, cells = before ++ after ∧ (∃ cell ∈ before, Text.IsEnd cell.char) ∧
    (s.comment = none → after = []) ∧
    ∀ k, s.comment = some k → k.embedded = true ∧ Text.byteSize (Cell.text before) = k.offset

section Step

variable {s s' : State} {cs : List Char} {c : Char} {rule : Rule} {outcome : Outcome}

theorem State.Stuck.exists_visible {cells : List Cell} (h : s.Stuck cells) :
    ∃ cell ∈ cells, cell.isVisible = true ∧ Text.IsEnd cell.char := by
  obtain ⟨before, after, rfl, ⟨cell, hcell, hend⟩, -, -⟩ := h.pending
  exact ⟨cell, List.mem_append_left _ hcell, by simp [Cell.isVisible, hend.isBlank_eq_false], hend⟩

/-- What is stuck is only ever claimed by being reported, or goes on to be stuck. -/
theorem Claim.stuck (hs : s.Offered cs c) (h : Claim s c rule outcome s')
    (hstuck : s.Stuck s.window.body) :
    outcome.token? = none ∧ (findingsOf outcome.found ≠ [] ∨ s'.Stuck s'.window.cells) := by
  obtain ⟨cell, hcell, hvisible, hend⟩ := hstuck.exists_visible
  have hblocks := hstuck.blocks
  have hcurrent := hstuck.current
  have hspan : Cell.span? s.window.body ≠ none := by
    intro hnone
    simp [Cell.span?_eq_none_iff.1 hnone cell hcell] at hvisible
  obtain ⟨before, after, hbody, hend', hnone, hsome⟩ := hstuck.pending
  cases h with
  | inComment k hk =>
    refine ⟨rfl, Or.inr
      ⟨hblocks, hcurrent, before, after ++ [⟨c, s.position⟩], ?_, hend', ?_, hsome⟩⟩
    · rw [hs.cells, hbody, List.append_assoc]
    · simp [hk]
  | stripComment k hk =>
    have hcut : (s.window.truncate k.offset).cells = before :=
      Window.cells_truncate (by rw [hs.cells, hbody, List.append_assoc]) (hsome k hk).2
    exact ⟨rfl, Or.inr ⟨hblocks, hcurrent, before, [], by simp [hcut], hend', by simp, by simp⟩⟩
  | closeComment k hk _ _ hembedded => simp [(hsome k hk).1] at hembedded
  | openComment hk star slash front hrecent hstar hslash =>
    -- the slash is none of the characters in question, so they stand before the comment
    have hbody' : s.window.body = front.reverse ++ [slash] := by simp [Window.body, hrecent]
    have hcells : s.window.cells = front.reverse ++ [slash, star] := by
      simp [Window.cells, hrecent]
    have hfront : cell ∈ front.reverse := by
      rw [hbody'] at hcell
      rcases List.mem_append.1 hcell with hcell | hcell
      · exact hcell
      · rw [List.mem_singleton.1 hcell, hslash] at hend
        exact absurd hend (by unfold Text.IsEnd; decide)
    have hsize : s.window.bytes = Text.byteSize (Cell.text front.reverse) + 2 := by
      have htext : s.window.text = Cell.text front.reverse ++ ['/', '*'] := by
        simp [Window.text, hcells, hslash, hstar]
      rw [hs.window.bytes, htext, Text.byteSize_append]
      rfl
    refine ⟨rfl, Or.inr ⟨hblocks, hcurrent, front.reverse, [slash, star], hcells,
      ⟨cell, hfront, hend⟩, by simp [State.openComment], ?_⟩⟩
    intro k hk'
    simp only [State.openComment, Option.some.injEq] at hk'
    subst hk'
    have hblank : Text.allBlank (Cell.text front.reverse) = false := by
      rw [Text.allBlank, List.all_eq_false]
      exact ⟨cell.char, List.mem_map_of_mem hfront, by simp [hend.isBlank_eq_false]⟩
    refine ⟨?_, by simp only [hsize]; omega⟩
    rw [hblank, Bool.not_false, Bool.or_true]
  | openAtRule hk _ hc hsign =>
    have htext : s.window.text = s.bodyText ++ ['@'] := by
      rw [Window.text, hs.cells, hc, Cell.text, List.map_append]
      rfl
    rw [htext] at hsign
    have hblank := List.all_eq_true.1 (allBlank_of_isAtSign hsign) _ (List.mem_map_of_mem hcell)
    simp [hend.isBlank_eq_false] at hblank
  | selector hk hc _ hstring hselector =>
    have hmem : cell.char ∈ Text.trim s.bodyText :=
      Text.mem_trim hend.isBlank_eq_false (List.mem_map_of_mem hcell)
    have hallowed := (Selector.isSelector_iff.1 hselector).2 _ hmem
    simp [hend.isAllowed_eq_false] at hallowed
  | closeAtRule hk o ho | inWhitespace hk o ho | closeWhitespace hk o ho =>
    simp [hcurrent] at ho
  | openProperty hk hne | closeProperty hk hne | rejectBlank hk hne | rejectContent hk hne =>
    exact absurd hblocks hne
  | openBlock hk hc _ hstring hblank | strayBrace hk _ hc hstring hblank =>
    exact absurd hblank hspan
  | openUnclaimed | strayContent => exact ⟨rfl, Or.inl (by simp [Outcome.found, Outcome.finding?])⟩
  | closeBlock hk _ hc hstring hblank b blocks hcons => simp [hblocks] at hcons
  | closeBlockAfter hk _ hc hstring start stop hblank b blocks hcons => simp [hblocks] at hcons
  | openWhitespace hk _ hc hblank =>
    have := hs.window.isBlank_iff.1 hblank cell (by simp [hs.cells, hcell])
    simp [hend.isBlank_eq_false] at this

/-- A character that nothing claims is pending as well. -/
theorem State.Offered.stuck (hs : s.Offered cs c) (hblocks : s.blocks = [])
    (hcurrent : s.current = none) (hcomment : s.comment = none)
    (hend : Text.IsEnd c ∨ s.Stuck s.window.body) : s.Stuck s.window.cells := by
  refine ⟨hblocks, hcurrent, s.window.cells, [], (List.append_nil _).symm, ?_, by simp,
    by simp [hcomment]⟩
  rcases hend with hc | hstuck
  · exact ⟨⟨c, s.position⟩, by simp [hs.cells], hc⟩
  · obtain ⟨cell, hcell, -, hend⟩ := hstuck.exists_visible
    exact ⟨cell, by simp [hs.cells, hcell], hend⟩

end Step

namespace State

/-- Something has been found, or what is pending is stuck. -/
def Reported (items : List Item) (s : State) (cells : List Cell) : Prop :=
  findingsOf items ≠ [] ∨ s.Stuck cells

theorem findingsOf_append_ne_nil {items : List Item} (h : findingsOf items ≠ [])
    (more : List Item) : findingsOf (items ++ more) ≠ [] := by
  simp [h]

theorem preserves_reported (cs : List Char) (c : Char) :
    Preserves c (fun items s => s.Offered cs c ∧ Reported items s s.window.body)
      (fun items s => s.OfferedAgain cs c ∧ findingsOf items ≠ [])
      (fun items s => Reported items s s.window.cells) where
  last h := h.1.last
  first_of_again h := ⟨h.1.toOffered, Or.inl h.2⟩
  done_of_again h := Or.inl h.2
  done_of_skip h hskip := by
    rcases h.2 with hfound | hstuck
    · exact Or.inl hfound
    · have hcomment := h.1.comment_eq_none (hskip .comment (by decide))
      exact Or.inr (h.1.stuck hstuck.blocks hstuck.current hcomment (Or.inr hstuck))
  done_of_claim h hclaim _ := by
    rcases h.2 with hfound | hstuck
    · exact Or.inl (findingsOf_append_ne_nil hfound _)
    · rcases (hclaim.stuck h.1 hstuck).2 with hfound | hstuck'
      · exact Or.inl (by simp [hfound])
      · exact Or.inr hstuck'
  done_of_token h hclaim ht _ := by
    rcases h.2 with hfound | hstuck
    · rw [List.append_assoc]
      exact Or.inl (findingsOf_append_ne_nil hfound _)
    · simp [(hclaim.stuck h.1 hstuck).1] at ht
  again_of_token h hclaim ht _ := by
    rcases h.2 with hfound | hstuck
    · rw [List.append_assoc]
      exact ⟨hclaim.offeredAgain h.1 ht, findingsOf_append_ne_nil hfound _⟩
    · simp [(hclaim.stuck h.1 hstuck).1] at ht

theorem Reported.scan {items : List Item} {cs : List Char}
    (h : Reported items (State.after {} cs) (State.after {} cs).window.cells) (c : Char) :
    Reported (items ++ ((State.after {} cs).scan c).1.items) ((State.after {} cs).scan c).2
      ((State.after {} cs).scan c).2.window.cells := by
  refine (preserves_reported cs c).scan items ⟨(settled_after cs).arrive c, ?_⟩
  rcases h with hfound | hstuck
  · exact Or.inl hfound
  · exact Or.inr ⟨hstuck.blocks, hstuck.current, hstuck.pending⟩

/-- A run that is stuck at the end of the source reports it there. -/
theorem Reported.finish {items : List Item} {s : State} (h : Reported items s s.window.cells) :
    findingsOf (items ++ s.finish.items) ≠ [] := by
  rcases h with hfound | hstuck
  · exact findingsOf_append_ne_nil hfound _
  · cases hk : s.comment with
    | some k =>
      obtain ⟨before, after, -, -, -, hsome⟩ := hstuck.pending
      simp [State.finish, finishComment, hk, (hsome k hk).1, unclosed]
    | none =>
      have hcomment : s.finishComment = ([], s) := by simp [finishComment, hk]
      have hcurrent : s.finishCurrent = ([], s) := by
        simp [finishCurrent, closeCurrent?, hstuck.current]
      have hleftover : findingsOf s.leftover ≠ [] := by
        obtain ⟨cell, hcell, hvisible, -⟩ := hstuck.exists_visible
        unfold leftover
        cases hspan : Cell.span? s.window.cells with
        | none => simp [Cell.span?_eq_none_iff.1 hspan cell hcell] at hvisible
        | some span => simp
      simp [State.finish, hcomment, hcurrent, finishBlocks, hstuck.blocks, hleftover]

end State

end Scan

end Stylesheet
