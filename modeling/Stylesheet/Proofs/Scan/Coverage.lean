import Stylesheet.Proofs.Scan.Tiling

set_option autoImplicit false

/-! # Every character is claimed once

At the end of the source what is still open is closed and what is still pending is reported, so that
nothing stays in the window. The text spans of a run therefore share out all text of the source that
stands in no comment: no two of them overlap, and every character of it lies in exactly one. -/

namespace Stylesheet.Scan

variable {hidden : Position → Prop} {cs : List Char} {items : List Item} {s : State}

/-! ## The end of the source -/

/-- Findings about things left open are not about text. -/
@[simp] theorem structuralFindings_cons_unclosed (type : TokenType) (start stop : Position)
    (items : List Item) :
    structuralFindings (.finding (.spanning (.unclosed type) start stop) :: items) =
      structuralFindings items := by
  simp [structuralFindings, Finding.isStructural, Finding.key, Finding.spanning,
    Issue.key]

@[simp] theorem textSpans_cons_unclosed (type : TokenType) (start stop : Position)
    (items : List Item) :
    textSpans (.finding (.spanning (.unclosed type) start stop) :: items) = textSpans items := by
  simp [textSpans, Item.textSpans, Finding.isStructural, Finding.key, Finding.spanning, Issue.key]

/-- A token accepted at the end of the source, after a finding that it is not closed. -/
theorem claimed_finish (items : List Item) {s₀ s₁ : State} {t : Token} {found : List Item}
    (hfound : textSpans found = []) (h₀ : s₀.blocks = s.blocks)
    (h₁ : s₁.blocks = (s₀.accept t).2.blocks) :
    (claimed (items ++ (found ++ (s₀.accept t).1)) s₁).Perm (claimed items s ++ t.textSpans) := by
  rw [← claimed_congr items h₀, claimed_congr _ h₁]
  have hperm := claimed_accept items s₀ t
  simpa [claimed, hfound] using hperm

theorem Tiling.finishComment (h : Tiling hidden cs items s) (hs : s.Settled cs)
    (hhidden : ∀ k, s.comment = some k → ∀ p, k.start ≤ p → p < s.next → hidden p) :
    Tiling hidden cs (items ++ s.finishComment.1) s.finishComment.2 := by
  unfold State.finishComment
  split
  · simpa using h
  · next k hk =>
    dsimp only
    split
    · obtain ⟨before, rest, hcells, hcut, hstart, -⟩ :=
        (hs.coherent.comment k hk).truncate (List.append_nil _).symm
      refine h.drop (by simp [claimed, State.textSpans, State.unclosed])
        (by simp [State.unclosed]) rfl ?_ ?_
      · intro cell hcell
        rw [hcells]
        exact List.mem_append_left _ (by simpa only [hcut] using hcell)
      · intro cell hcell _ hvisible
        rw [hcells] at hcell
        rcases List.mem_append.1 hcell with hcell | hcell
        · simpa only [hcut] using hcell
        · exact absurd (hidden_of_comment hs.next hs.cells hhidden hk hcells hstart hcell) hvisible
    · next halone =>
      rw [Bool.not_eq_true] at halone
      obtain ⟨-, before, rest, hcells, hblank, hrest⟩ :=
        (hs.coherent.comment k hk).of_standalone halone
      refine h.drop ?_ (by simp [State.unclosed]) (by simp [State.clearWindow])
        (by intro cell hcell; cases hcell) ?_
      · rw [← List.singleton_append]
        refine (claimed_finish (s := s) items ?_ ?_ ?_).trans ?_
        · simp [State.unclosed]
        · rfl
        · rfl
        · simp [Token.textSpans_eq, OpenComment.close, Leaf.type, TokenType.isText]
      · intro cell hcell htext hvisible
        rw [hcells] at hcell
        rcases List.mem_append.1 hcell with hcell | hcell
        · simp [isText_of_blank (hblank cell hcell)] at htext
        · exact absurd (hidden_of_comment hs.next hs.cells hhidden hk hcells hrest hcell) hvisible

theorem type_finalContent (kind : OpenKind) (text : List Char) :
    (State.finalContent kind text).type = kind.type := by
  cases kind <;> rfl

/-- The text of an open token ends with the source. -/
theorem Tiling.finishCurrent (h : Tiling hidden cs items s) (hs : s.Settled cs)
    (hcomment : s.comment = none) :
    Tiling hidden cs (items ++ s.finishCurrent.1) s.finishCurrent.2 := by
  cases hcurrent : s.current with
  | none => simpa [State.finishCurrent, State.closeCurrent?, hcurrent] using h
  | some o =>
    obtain ⟨⟨first, hfirst, hposition⟩, hle⟩ :=
      (hs.coherent.current hcomment o hcurrent).exists_cell hs.ordered
    have hlt : o.start < s.next := by
      rw [← hposition]
      exact lt_of_lt_of_le first.position_lt_stop (hs.stop_le_next hfirst)
    have htype : (State.finalContent o.kind s.window.text).type.isText = true := by
      rw [type_finalContent]
      cases o.kind <;> rfl
    simp only [State.finishCurrent, State.closeCurrent?, hcurrent, Option.map_some]
    refine h.add ⟨o.start, s.next⟩ ?_ (Or.inl ?_) (by simp [State.clearWindow])
      ⟨first, hfirst, hposition⟩ hlt (le_refl _) (by intro cell hcell; cases hcell) ?_
    · refine (claimed_finish (s := s) items ?_ ?_ ?_).trans ?_
      · split <;> simp [State.unclosed]
      · rfl
      · rfl
      · rw [OpenToken.close, textSpans_ofLeaf htype hlt]
    · split <;> simp [State.unclosed]
    · intro cell hcell htext _
      refine Or.inr ⟨hle cell hcell (isVisible_of_isText htext), ?_⟩
      exact lt_of_lt_of_le cell.position_lt_stop (hs.stop_le_next hcell)

/-- Closing blocks hands the text spans of the innermost on to the outermost. -/
theorem textSpans_finishBlock (stop : Position) (last : Option TokenId) (b : OpenBlock)
    (around : List OpenBlock) :
    (textSpans (State.finishBlock stop last b around).items).Perm
      ((b :: around).flatMap fun b => b.recent.flatMap Token.textSpans) := by
  induction around generalizing b with
  | nil =>
    have hspans : textSpans [.token ((b.close stop).linkedAfter last)] =
        (b.close stop).textSpans := by simp [textSpans, Item.textSpans]
    simpa [State.finishBlock, hspans] using textSpans_close b stop
  | cons outer rest ih =>
    simp only [State.finishBlock, Output.items_append, textSpans_append]
    refine (List.Perm.append_left _ (ih _)).trans ?_
    simp only [textSpans_cons_unclosed, textSpans_nil, OpenBlock.add, List.flatMap_cons,
      List.nil_append, Token.textSpans_childOf, List.append_assoc]
    exact (textSpans_close b stop).append_right _

theorem structuralFindings_finishBlock (stop : Position) (last : Option TokenId) (b : OpenBlock)
    (around : List OpenBlock) :
    structuralFindings (State.finishBlock stop last b around).items = [] := by
  induction around generalizing b with
  | nil =>
    simp only [State.finishBlock, structuralFindings_cons_unclosed]
    rfl
  | cons outer rest ih => simp [State.finishBlock, ih]

theorem Tiling.finishBlocks (h : Tiling hidden cs items s) :
    Tiling hidden cs (items ++ s.finishBlocks.items) { s with blocks := [] } := by
  cases hblocks : s.blocks with
  | nil =>
    refine h.drop ?_ (by simp [State.finishBlocks, hblocks]) rfl (fun _ h => h) (fun _ h _ _ => h)
    simp [State.finishBlocks, claimed, State.textSpans, hblocks]
  | cons b around =>
    simp only [State.finishBlocks, hblocks]
    refine h.drop ?_ (by simp [structuralFindings_finishBlock]) rfl (fun _ h => h)
      (fun _ h _ _ => h)
    simp only [claimed, textSpans_append, State.textSpans, hblocks, List.flatMap_nil,
      List.append_nil]
    exact List.Perm.append_left _ (textSpans_finishBlock s.next s.lastTopLevel b around)

/-- What is left in the window is reported. -/
theorem Tiling.leftover (h : Tiling hidden cs items s) (hs : Cell.Ordered s.window.cells)
    (hnext : ∀ cell ∈ s.window.cells, cell.stop ≤ s.next) :
    Tiling hidden cs (items ++ s.leftover) { s with window := {} } := by
  unfold State.leftover
  split
  · next hspan =>
    refine h.drop (by simp [claimed, State.textSpans]) (by simp) rfl
      (by intro cell hcell; cases hcell) ?_
    intro cell hcell htext _
    simp [isText_of_blank (Cell.span?_eq_none_iff.1 hspan cell hcell)] at htext
  · next start stop hspan =>
    obtain ⟨first, hfirst, -, hposition⟩ := Cell.exists_position_eq_start hspan
    obtain ⟨last, hlast, -, hstop⟩ := Cell.exists_stop_eq_stop hspan
    have hissue :
        (Issue.leftover (String.ofList (Text.trim s.window.text))).key ≠ .unclosedToken := by
      simp [Issue.key]
    have hlt := hs.start_lt_stop hspan
    refine h.add _ (claimed_append_spanning items s _ hissue hlt)
      (Or.inr ⟨.spanning (.leftover (String.ofList (Text.trim s.window.text))) start stop, ?_, rfl⟩)
      rfl ⟨first, hfirst, hposition⟩ hlt (by rw [← hstop]; exact hnext last hlast)
      (by intro cell hcell; cases hcell) ?_
    · rw [structuralFindings_append, structuralFindings_spanning hissue]
    · intro cell hcell htext _
      obtain ⟨hle, hle'⟩ := hs.mem_span hspan hcell (isVisible_of_isText htext)
      exact Or.inr ⟨hle, lt_of_lt_of_le cell.position_lt_stop hle'⟩

/-- A finished run is tiled by the text spans of its items, with nothing left in the window. -/
theorem Tiling.finish (h : Tiling hidden cs items s) (hs : s.Settled cs)
    (hhidden : ∀ k, s.comment = some k → ∀ p, k.start ≤ p → p < s.next → hidden p) :
    ∃ s', Tiling hidden cs (items ++ s.finish.items) s' ∧ s'.blocks = [] ∧
      s'.window.cells = [] := by
  obtain ⟨hs₁, hcomment⟩ := hs.finishComment
  have h₁ := h.finishComment hs hhidden
  have h₂ := h₁.finishCurrent hs₁ hcomment
  have hsub : s.finishComment.2.finishCurrent.2.window.cells.Sublist
      s.finishComment.2.window.cells := by
    cases hcurrent : s.finishComment.2.current with
    | none => simp [State.finishCurrent, State.closeCurrent?, hcurrent]
    | some o =>
      simp [State.finishCurrent, State.closeCurrent?, hcurrent, State.clearWindow, Window.cells]
  have hnext : s.finishComment.2.finishCurrent.2.next = s.finishComment.2.next := by
    cases hcurrent : s.finishComment.2.current with
    | none => simp [State.finishCurrent, State.closeCurrent?, hcurrent]
    | some o => simp [State.finishCurrent, State.closeCurrent?, hcurrent, State.clearWindow]
  have h₃ := h₂.finishBlocks.leftover (hs₁.ordered.sublist hsub) (by
    intro cell hcell
    simp only [hnext]
    exact hs₁.stop_le_next (hsub.subset hcell))
  refine ⟨{ s.finishComment.2.finishCurrent.2 with blocks := [], window := {} }, ?_, rfl, rfl⟩
  simpa [State.finish, State.leftover, List.append_assoc] using h₃

/-! ## The whole run -/

/-- A position in one of several spans that do not overlap is in exactly one. -/
theorem countP_contains_eq_one {spans : List Span} (h : spans.Pairwise Span.Disjoint)
    {p : Position} (hp : ∃ span ∈ spans, span.Contains p) :
    spans.countP (·.Contains p) = 1 := by
  obtain ⟨span, hmem, hin⟩ := hp
  obtain ⟨before, after, rfl⟩ := List.append_of_mem hmem
  obtain ⟨-, hafter, hbefore⟩ := List.pairwise_append.1 h
  have h₁ : before.countP (·.Contains p) = 0 := by
    rw [List.countP_eq_zero]
    intro a ha
    simpa using (hbefore a ha span (List.mem_cons_self ..)).symm.not_contains hin
  have h₂ : after.countP (·.Contains p) = 0 := by
    rw [List.countP_eq_zero]
    intro a ha
    simpa using ((List.pairwise_cons.1 hafter).1 a ha).not_contains hin
  rw [List.countP_append, List.countP_cons_of_pos (by simpa using hin), h₁, h₂]

/-- The text spans of a run share out the text that was scanned. -/
theorem textSpans_scanText (cs : List Char) :
    (textSpans (scanText cs)).Pairwise Span.Disjoint ∧
    (∀ before c after, cs = before ++ c :: after → Text.isBlank c = false →
      c ≠ '{' → c ≠ '}' → c ≠ ';' → ¬ Commented cs (Position.start.advanceAll before) →
      (textSpans (scanText cs)).countP (·.Contains (Position.start.advanceAll before)) = 1) ∧
    (structuralFindings (scanText cs)).Pairwise fun f g => f.start < g.start := by
  have hs := State.settled_after cs
  have hhidden : ∀ k, (State.after {} cs).comment = some k → ∀ p, k.start ≤ p →
      p < (State.after {} cs).next → Commented cs p := by
    intro k hk p hle hlt
    exact ⟨cs, [], k, by simp, hk, hle, by simpa [hs.next] using hlt⟩
  obtain ⟨s, htiling, hblocks, hwindow⟩ := (State.tiling_after cs).finish hs hhidden
  have hclaimed : claimed (scanText cs) s = textSpans (scanText cs) := by
    simp [claimed, State.textSpans, hblocks]
  have hdisjoint := htiling.disjoint
  rw [← scanText, hclaimed] at hdisjoint
  refine ⟨hdisjoint, ?_, htiling.findings⟩
  intro before c after hcs hblank hopen hclose hsemicolon hcommented
  have hcell : (⟨c, Position.start.advanceAll before⟩ : Cell) ∈ Cell.ofText .start cs :=
    Cell.mem_ofText_iff.2 ⟨before, after, hcs, rfl⟩
  have htext : (⟨c, Position.start.advanceAll before⟩ : Cell).isText = true := by
    simp [Cell.isText, Cell.isVisible, hblank, hopen, hclose, hsemicolon]
  have hspan : ∃ span ∈ textSpans (scanText cs),
      span.Contains (Position.start.advanceAll before) := by
    rcases htiling.covered _ hcell htext hcommented with hmem | hspan
    · simp [hwindow] at hmem
    · rwa [← scanText, hclaimed] at hspan
  exact countP_contains_eq_one hdisjoint hspan

end Stylesheet.Scan
