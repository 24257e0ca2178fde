import Mathlib.Data.List.Perm.Basic
import Stylesheet.Proofs.Scan.Coherence
import Stylesheet.Proofs.Token

set_option autoImplicit false

/-! # The spans claimed while scanning

The *text spans* of a run are the spans of its selectors, declarations, at-rules and indentation, at
any depth, and of its findings about text. While a text is scanned they are spread over the items
produced so far and the blocks that are still open. `Tiling` says that they do not overlap, that
none reaches into the window, and that every character of text is in the window, in a span, or in a
comment. A claim adds at most one span, made of cells of the window, so each claim keeps the tiling
(`Claim.tiling`, `Claim.tiling_of_token`), and so does a run (`State.tiling_after`). -/

namespace Stylesheet

/-- A stretch of source from `start` up to and without `stop`. -/
structure Span where
  start : Position
  stop : Position
deriving DecidableEq, Repr

namespace Span

/-- The position lies in the span. -/
def Contains (span : Span) (p : Position) : Prop := span.start ≤ p ∧ p < span.stop

instance (span : Span) (p : Position) : Decidable (span.Contains p) :=
  inferInstanceAs (Decidable (_ ∧ _))

/-- One of the spans ends before the other begins. -/
def Disjoint (a b : Span) : Prop := a.stop ≤ b.start ∨ b.stop ≤ a.start

theorem Disjoint.symm {a b : Span} (h : a.Disjoint b) : b.Disjoint a := Or.symm h

theorem Disjoint.not_contains {a b : Span} (h : a.Disjoint b) {p : Position}
    (ha : a.Contains p) : ¬ b.Contains p := by
  intro hb
  rcases h with h | h
  · exact absurd (lt_of_lt_of_le ha.2 h) (not_lt.2 hb.1)
  · exact absurd (lt_of_lt_of_le hb.2 h) (not_lt.2 ha.1)

end Span

/-! ## Text spans -/

/-- The types of token that stand for text of their own. A block stands for its children, and a
comment for nothing. -/
def TokenType.isText : TokenType → Bool
  | selector | property | atRule | whitespace => true
  | comment | block => false

/-- The span of a token. -/
def Token.span (t : Token) : Span := ⟨t.start, t.stop⟩

/-- The spans of the tokens with text of their own in a token tree. -/
def Token.textSpans (t : Token) : List Span := (t.preorder.filter (·.type.isText)).map Token.span

/-- A finding about text, and not about something that the source ends without closing. -/
def Finding.isStructural (f : Finding) : Bool := f.key != .unclosedToken

def Finding.span (f : Finding) : Span := ⟨f.start, f.stop⟩

def Item.textSpans : Item → List Span
  | .token t => t.textSpans
  | .finding f => if f.isStructural then [f.span] else []

/-- The text spans of a run. -/
def textSpans (items : List Item) : List Span := items.flatMap Item.textSpans

/-- The findings about text, in stream order. -/
def structuralFindings (items : List Item) : List Finding :=
  (findingsOf items).filter Finding.isStructural

/-- A character of text: neither blank nor one of the characters that end things. -/
def Cell.isText (cell : Cell) : Bool :=
  cell.isVisible && cell.char != '{' && cell.char != '}' && cell.char != ';'

theorem Token.textSpans_eq (t : Token) :
    t.textSpans = (if t.type.isText then [t.span] else []) ++ t.children.flatMap textSpans := by
  have hmap : (t.children.flatMap preorder).filter (·.type.isText) =
      t.children.flatMap fun u => u.preorder.filter (·.type.isText) := by
    rw [List.filter_flatMap]
  rw [textSpans, preorder_eq_cons, List.filter_cons, hmap]
  cases t.type.isText
  · exact List.map_flatMap ..
  · exact congrArg (t.span :: ·) (List.map_flatMap ..)

@[simp] theorem Token.textSpans_childOf (t : Token) (parent : TokenId) (previous : Option TokenId) :
    (t.childOf parent previous).textSpans = t.textSpans := by
  rw [textSpans_eq, textSpans_eq t]
  simp [span]

@[simp] theorem Token.textSpans_linkedAfter (t : Token) (previous : Option TokenId) :
    (t.linkedAfter previous).textSpans = t.textSpans := by
  rw [textSpans_eq, textSpans_eq t]
  simp [span]

@[simp] theorem textSpans_nil : textSpans [] = [] := rfl

@[simp] theorem structuralFindings_nil : structuralFindings [] = [] := rfl

@[simp] theorem textSpans_append (as bs : List Item) :
    textSpans (as ++ bs) = textSpans as ++ textSpans bs := by
  simp [textSpans]

@[simp] theorem structuralFindings_append (as bs : List Item) :
    structuralFindings (as ++ bs) = structuralFindings as ++ structuralFindings bs := by
  simp [structuralFindings]

/-- A finding about text is one of the text spans. -/
theorem span_mem_textSpans {items : List Item} {f : Finding} (h : f ∈ structuralFindings items) :
    f.span ∈ textSpans items := by
  obtain ⟨hmem, hstructural⟩ := List.mem_filter.1 h
  obtain ⟨item, hitem, hf⟩ := List.mem_filterMap.1 hmem
  cases item with
  | token t => simp [Item.finding?] at hf
  | finding g =>
    simp only [Item.finding?, Option.some.injEq] at hf
    subst hf
    exact List.mem_flatMap.2 ⟨_, hitem, by simp [Item.textSpans, hstructural]⟩

namespace Scan

/-! ## The spans claimed so far -/

/-- The text spans of the children that open blocks have so far. -/
def State.textSpans (s : State) : List Span :=
  s.blocks.flatMap fun b => b.recent.flatMap Token.textSpans

/-- The text spans of the items so far and of the blocks that are still open. -/
def claimed (items : List Item) (s : State) : List Span :=
  Stylesheet.textSpans items ++ s.textSpans

/-- Only the open blocks of a state matter for the spans claimed. -/
theorem claimed_congr (items : List Item) {s s' : State} (h : s'.blocks = s.blocks) :
    claimed items s' = claimed items s := by
  simp [claimed, State.textSpans, h]

/-- Accepting a token adds its text spans. -/
theorem claimed_accept (items : List Item) (s : State) (t : Token) :
    (claimed (items ++ (s.accept t).1) (s.accept t).2).Perm (claimed items s ++ t.textSpans) := by
  unfold State.accept
  cases hb : s.blocks with
  | nil =>
    simp [claimed, State.textSpans, State.acceptTopLevel, hb, Stylesheet.textSpans, Item.textSpans]
  | cons b blocks =>
    simp only [claimed, State.textSpans, hb, OpenBlock.add, List.append_nil, List.flatMap_cons,
      Token.textSpans_childOf, List.append_assoc]
    refine List.Perm.append_left _ ?_
    rw [← List.append_assoc (List.flatMap Token.textSpans b.recent)]
    exact List.perm_append_comm

theorem claimed_complete (items : List Item) (s : State) (t : Token) :
    (claimed (items ++ (s.complete t).1) (s.complete t).2).Perm
      (claimed items s ++ t.textSpans) :=
  claimed_accept items (s.recordCompleted t) t

theorem textSpans_close (b : OpenBlock) (stop : Position) :
    (b.close stop).textSpans.Perm (b.recent.flatMap Token.textSpans) := by
  rw [Token.textSpans_eq]
  simpa [OpenBlock.close, TokenType.isText, OpenBlock.children] using
    (List.reverse_perm b.recent).flatMap_right Token.textSpans

/-- Closing a block hands its text spans on to the token. -/
theorem claimed_close {items : List Item} {s : State} {b : OpenBlock} {blocks : List OpenBlock}
    (hblocks : s.blocks = b :: blocks) (stop : Position) :
    (claimed items { s with blocks } ++ (b.close stop).textSpans).Perm (claimed items s) := by
  simp only [claimed, State.textSpans, hblocks, List.flatMap_cons, List.append_assoc]
  refine List.Perm.append_left _ (List.perm_append_comm.trans ?_)
  exact (textSpans_close b stop).append_right _

theorem claimed_append_finding (items : List Item) (s : State) (f : Finding) :
    (claimed (items ++ [.finding f]) s).Perm
      (claimed items s ++ if f.isStructural then [f.span] else []) := by
  simp only [claimed, textSpans_append, List.append_assoc]
  refine List.Perm.append_left _ ?_
  simpa [Stylesheet.textSpans, Item.textSpans] using List.perm_append_comm

/-! ## Tilings -/

/-- The spans claimed so far and the window share the characters of `cs` out between them; `hidden`
tells which characters stand in comments. -/
structure Tiling (hidden : Position → Prop) (cs : List Char) (items : List Item) (s : State) :
    Prop where
  disjoint : (claimed items s).Pairwise Span.Disjoint
  nonempty : ∀ span ∈ claimed items s, span.start < span.stop
  stop_le_next : ∀ span ∈ claimed items s, span.stop ≤ s.next
  stop_le_cell : ∀ span ∈ claimed items s, ∀ cell ∈ s.window.cells, span.stop ≤ cell.position
  covered : ∀ cell ∈ Cell.ofText .start cs, cell.isText = true → ¬ hidden cell.position →
    cell ∈ s.window.cells ∨ ∃ span ∈ claimed items s, span.Contains cell.position
  findings : (structuralFindings items).Pairwise fun f g => f.start < g.start

namespace Tiling

variable {hidden : Position → Prop} {cs : List Char} {items items' : List Item} {s s' : State}

/-- Cells may leave the window unclaimed when they are no text or hidden. -/
theorem drop (h : Tiling hidden cs items s) (hperm : (claimed items' s').Perm (claimed items s))
    (hfindings : structuralFindings items' = structuralFindings items) (hnext : s'.next = s.next)
    (hsub : ∀ cell ∈ s'.window.cells, cell ∈ s.window.cells)
    (hkeep : ∀ cell ∈ s.window.cells, cell.isText = true → ¬ hidden cell.position →
      cell ∈ s'.window.cells) : Tiling hidden cs items' s' where
  disjoint := (hperm.pairwise_iff Span.Disjoint.symm).2 h.disjoint
  nonempty span hspan := h.nonempty span (hperm.subset hspan)
  stop_le_next span hspan := by
    rw [hnext]
    exact h.stop_le_next span (hperm.subset hspan)
  stop_le_cell span hspan cell hcell :=
    h.stop_le_cell span (hperm.subset hspan) cell (hsub cell hcell)
  covered cell hcell htext hhidden := by
    rcases h.covered cell hcell htext hhidden with hmem | ⟨span, hspan, hp⟩
    · exact Or.inl (hkeep cell hmem htext hhidden)
    · exact Or.inr ⟨span, hperm.symm.subset hspan, hp⟩
  findings := by
    rw [hfindings]
    exact h.findings

/-- A new span that begins in the window takes over the cells it contains. -/
theorem add (h : Tiling hidden cs items s) (span : Span)
    (hperm : (claimed items' s').Perm (claimed items s ++ [span]))
    (hfindings : structuralFindings items' = structuralFindings items ∨
      ∃ f, structuralFindings items' = structuralFindings items ++ [f] ∧ f.start = span.start)
    (hnext : s'.next = s.next)
    (hstart : ∃ cell ∈ s.window.cells, cell.position = span.start) (hlt : span.start < span.stop)
    (hstop : span.stop ≤ s.next)
    (hsub : ∀ cell ∈ s'.window.cells, cell ∈ s.window.cells ∧ span.stop ≤ cell.position)
    (hkeep : ∀ cell ∈ s.window.cells, cell.isText = true → ¬ hidden cell.position →
      cell ∈ s'.window.cells ∨ span.Contains cell.position) : Tiling hidden cs items' s' := by
  obtain ⟨first, hfirst, hposition⟩ := hstart
  have hbefore : ∀ old ∈ claimed items s, old.stop ≤ span.start := by
    intro old hold
    rw [← hposition]
    exact h.stop_le_cell old hold first hfirst
  have hmem : ∀ {a}, a ∈ claimed items' s' ↔ a ∈ claimed items s ∨ a = span := by
    intro a
    rw [hperm.mem_iff]
    simp
  refine ⟨?_, ?_, ?_, ?_, ?_, ?_⟩
  · rw [hperm.pairwise_iff Span.Disjoint.symm, List.pairwise_append]
    refine ⟨h.disjoint, List.pairwise_singleton _ _, ?_⟩
    intro old hold new hnew
    rw [List.mem_singleton.1 hnew]
    exact Or.inl (hbefore old hold)
  · intro a ha
    rcases hmem.1 ha with ha | rfl
    · exact h.nonempty a ha
    · exact hlt
  · intro a ha
    rw [hnext]
    rcases hmem.1 ha with ha | rfl
    · exact h.stop_le_next a ha
    · exact hstop
  · intro a ha cell hcell
    rcases hmem.1 ha with ha | rfl
    · exact h.stop_le_cell a ha cell (hsub cell hcell).1
    · exact (hsub cell hcell).2
  · intro cell hcell htext hhidden
    rcases h.covered cell hcell htext hhidden with hcell' | ⟨old, hold, hp⟩
    · rcases hkeep cell hcell' htext hhidden with hkept | hin
      · exact Or.inl hkept
      · exact Or.inr ⟨span, hmem.2 (Or.inr rfl), hin⟩
    · exact Or.inr ⟨old, hmem.2 (Or.inl hold), hp⟩
  · rcases hfindings with hsame | ⟨f, hmore, hf⟩
    · rw [hsame]
      exact h.findings
    · rw [hmore, List.pairwise_append]
      refine ⟨h.findings, List.pairwise_singleton _ _, ?_⟩
      intro old hold new hnew
      rw [List.mem_singleton.1 hnew, hf]
      have hspan : old.span ∈ claimed items s :=
        List.mem_append_left _ (span_mem_textSpans hold)
      exact lt_of_lt_of_le (h.nonempty _ hspan) (hbefore _ hspan)

/-- The next character joins the window. -/
theorem arrive (h : Tiling hidden cs items s) {hidden' : Position → Prop}
    (hmono : ∀ p, hidden p → hidden' p) (hs : s.Settled cs) (c : Char) :
    Tiling hidden' (cs ++ [c]) items (s.arrive c) where
  disjoint := h.disjoint
  nonempty := h.nonempty
  stop_le_next span hspan :=
    le_trans (h.stop_le_next span hspan) (le_of_lt (s.next.lt_advance c))
  stop_le_cell span hspan cell hcell := by
    simp only [State.arrive, Window.cells_push, List.mem_append, List.mem_singleton] at hcell
    rcases hcell with hcell | rfl
    · exact h.stop_le_cell span hspan cell hcell
    · exact h.stop_le_next span hspan
  covered cell hcell htext hhidden := by
    rw [Cell.ofText_append, Cell.ofText_singleton, ← hs.next] at hcell
    simp only [State.arrive, Window.cells_push, List.mem_append]
    rcases List.mem_append.1 hcell with hcell | hcell
    · rcases h.covered cell hcell htext (fun hp => hhidden (hmono _ hp)) with hmem | hspan
      · exact Or.inl (Or.inl hmem)
      · exact Or.inr hspan
    · exact Or.inl (Or.inr hcell)
  findings := h.findings

end Tiling

/-! ## One claim -/

section Step

variable {hidden : Position → Prop} {cs : List Char} {c : Char} {items items' : List Item}
  {s s' : State} {rule : Rule} {outcome : Outcome}

theorem isText_eq_false {cell : Cell} (h : cell.char = '{' ∨ cell.char = '}' ∨ cell.char = ';') :
    cell.isText = false := by
  rcases h with h | h | h <;> simp [Cell.isText, h]

theorem isText_of_blank {cell : Cell} (h : cell.isVisible = false) : cell.isText = false := by
  simp [Cell.isText, h]

theorem isVisible_of_isText {cell : Cell} (h : cell.isText = true) : cell.isVisible = true := by
  simp only [Cell.isText, Bool.and_eq_true] at h
  exact h.1.1.1

/-- The visible text before the character becomes a span, possibly with the character itself. The
character stays in the window when it is offered again. -/
theorem Tiling.claimText (h : Tiling hidden (cs ++ [c]) items s) (hs : s.Offered cs c)
    {start stop last : Position} (hspan : Cell.span? s.window.body = some (start, last))
    (hlast : last ≤ stop) (hstop : stop ≤ s.next)
    (hperm : (claimed items' s').Perm (claimed items s ++ [⟨start, stop⟩]))
    (hfindings : structuralFindings items' = structuralFindings items ∨
      ∃ f, structuralFindings items' = structuralFindings items ++ [f] ∧ f.start = start)
    (hnext : s'.next = s.next)
    (hwindow : s'.window.cells = [] ∧ (c = '{' ∨ c = '}' ∨ c = ';') ∨
      s'.window.cells = [⟨c, s.position⟩] ∧ stop ≤ s.position) :
    Tiling hidden (cs ++ [c]) items' s' := by
  obtain ⟨first, hfirst, -, hposition⟩ := Cell.exists_position_eq_start hspan
  have hin : ∀ cell ∈ s.window.body, cell.isText = true →
      (Span.mk start stop).Contains cell.position := by
    intro cell hcell htext
    obtain ⟨hle, hle'⟩ := hs.ordered_body.mem_span hspan hcell (isVisible_of_isText htext)
    exact ⟨hle, lt_of_lt_of_le cell.position_lt_stop (le_trans hle' hlast)⟩
  refine h.add _ hperm hfindings hnext ⟨first, by simp [hs.cells, hfirst], hposition⟩
    (lt_of_lt_of_le (hs.ordered_body.start_lt_stop hspan) hlast) hstop ?_ ?_
  · intro cell hcell
    rcases hwindow with ⟨hnil, -⟩ | ⟨hself, hle⟩
    · simp [hnil] at hcell
    · rw [hself, List.mem_singleton] at hcell
      rw [hcell]
      exact ⟨by simp [hs.cells], hle⟩
  · intro cell hcell htext _
    rw [hs.cells] at hcell
    rcases List.mem_append.1 hcell with hcell | hcell
    · exact Or.inr (hin cell hcell htext)
    · rcases hwindow with ⟨-, hc⟩ | ⟨hself, -⟩
      · rw [List.mem_singleton.1 hcell, isText_eq_false hc] at htext
        exact absurd htext (by simp)
      · exact Or.inl (by rw [hself]; exact hcell)

/-- A window without visible text before a brace or semicolon may be emptied. -/
theorem Tiling.dropBlank (h : Tiling hidden (cs ++ [c]) items s) (hs : s.Offered cs c)
    (hspan : Cell.span? s.window.body = none) (hc : c = '{' ∨ c = '}' ∨ c = ';')
    (hperm : (claimed items' s').Perm (claimed items s))
    (hfindings : structuralFindings items' = structuralFindings items) (hnext : s'.next = s.next)
    (hwindow : s'.window.cells = []) : Tiling hidden (cs ++ [c]) items' s' := by
  refine h.drop hperm hfindings hnext (by simp [hwindow]) ?_
  intro cell hcell htext _
  rw [hs.cells] at hcell
  rcases List.mem_append.1 hcell with hcell | hcell
  · simp [isText_of_blank (Cell.span?_eq_none_iff.1 hspan cell hcell)] at htext
  · rw [List.mem_singleton.1 hcell, isText_eq_false hc] at htext
    exact absurd htext (by simp)

theorem claimed_append_spanning (items : List Item) (s : State) (issue : Issue)
    (hissue : issue.key ≠ .unclosedToken) {start stop : Position} (hlt : start < stop) :
    (claimed (items ++ [.finding (.spanning issue start stop)]) s).Perm
      (claimed items s ++ [⟨start, stop⟩]) := by
  have h := claimed_append_finding items s (.spanning issue start stop)
  have hstructural : (Finding.spanning issue start stop).isStructural = true := by
    simpa [Finding.isStructural, Finding.key, Finding.spanning] using hissue
  have hspan : (Finding.spanning issue start stop).span = ⟨start, stop⟩ := by
    simp [Finding.span, Finding.spanning, Position.widen_of_lt hlt]
  rwa [hstructural, if_pos rfl, hspan] at h

theorem structuralFindings_spanning {issue : Issue} (hissue : issue.key ≠ .unclosedToken)
    (start stop : Position) :
    structuralFindings [.finding (.spanning issue start stop)] = [.spanning issue start stop] := by
  simpa [structuralFindings, Finding.isStructural, Finding.key, Finding.spanning]
    using hissue

theorem key_headerIssue_ne (text : List Char) :
    (State.headerIssue text).key ≠ .unclosedToken := by
  unfold State.headerIssue
  split <;> simp [Issue.key]

/-- Everything from the opening slash of an open comment on is hidden. -/
theorem hidden_of_comment {cs : List Char} (hnext : s.next = Position.start.advanceAll cs)
    (hsub : s.window.cells.Sublist (Cell.ofText .start cs))
    (hhidden : ∀ k, s.comment = some k → ∀ p, k.start ≤ p → p < s.next → hidden p)
    {k : OpenComment} (hk : s.comment = some k) {before rest : List Cell}
    (hcells : s.window.cells = before ++ rest)
    (hrest : rest.head?.map Cell.position = some k.start) {cell : Cell} (hcell : cell ∈ rest) :
    hidden cell.position := by
  have hrest' : rest.Sublist (Cell.ofText .start cs) :=
    (List.sublist_append_right before rest).trans (hcells ▸ hsub)
  have hordered : Cell.Ordered rest := (Cell.ordered_ofText _ _).sublist hrest'
  obtain ⟨slash, hslash, hposition⟩ := Option.map_eq_some_iff.1 hrest
  have hle : k.start ≤ cell.position := by
    rw [← hposition]
    exact hordered.head_le hslash hcell
  have hstop : cell.stop ≤ s.next := by
    rw [hnext]
    exact Cell.stop_le_of_mem_ofText (hrest'.subset hcell)
  exact hhidden k hk cell.position hle (lt_of_lt_of_le cell.position_lt_stop hstop)

/-- A claim that finishes no token keeps the tiling. -/
theorem Claim.tiling (h : Claim s c rule outcome s') (hs : s.Offered cs c)
    (hhidden : ∀ k, s.comment = some k → ∀ p, k.start ≤ p → p < s.next → hidden p)
    (htiling : Tiling hidden (cs ++ [c]) items s) (ht : outcome.token? = none) :
    Tiling hidden (cs ++ [c]) (items ++ outcome.found) s' := by
  have hnext := h.next_eq
  -- every finding a claim makes is about the text before a brace or semicolon
  have hfinding (issue : Issue) (hissue : issue.key ≠ .unclosedToken) {start stop : Position}
      (hspan : Cell.span? s.window.body = some (start, stop)) (hc : c = '{' ∨ c = '}' ∨ c = ';')
      (hclaimed : ∀ items, claimed items s' = claimed items s) (hwindow : s'.window.cells = []) :
      Tiling hidden (cs ++ [c]) (items ++ [.finding (.spanning issue start stop)]) s' := by
    obtain ⟨-, -, -, hstop⟩ := hs.bodyStop_of_span hspan
    refine htiling.claimText hs hspan (le_refl stop) ?_ ?_
      (Or.inr ⟨.spanning issue start stop, ?_, rfl⟩) hnext (Or.inl ⟨hwindow, hc⟩)
    · exact le_trans hstop (le_of_lt hs.position_lt_next)
    · rw [hclaimed]
      exact claimed_append_spanning items s _ hissue (hs.ordered_body.start_lt_stop hspan)
    · rw [structuralFindings_append, structuralFindings_spanning hissue]
  cases h with
  | inComment | openComment | openAtRule | openProperty | inWhitespace =>
    refine htiling.drop ?_ (by simp [Outcome.found, Outcome.finding?]) hnext (fun _ h => h)
      (fun _ h _ _ => h)
    simp [Outcome.found, Outcome.finding?, claimed, State.textSpans, State.openComment,
      State.openToken]
  | stripComment k hk =>
    obtain ⟨before, rest, hcells, hcut, hstart, -⟩ :=
      (hs.coherent.comment k hk).truncate hs.cells
    refine htiling.drop (by simp [Outcome.found, Outcome.finding?, claimed, State.textSpans])
      (by simp [Outcome.found, Outcome.finding?]) hnext ?_ ?_
    · intro cell hcell
      rw [hcells]
      exact List.mem_append_left _ (by simpa only [hcut] using hcell)
    · intro cell hcell _ hvisible
      rw [hcells] at hcell
      rcases List.mem_append.1 hcell with hcell | hcell
      · simpa only [hcut] using hcell
      · exact absurd (hidden_of_comment hs.next_eq hs.cells_sublist hhidden hk hcells hstart
          hcell) hvisible
  | rejectBlank hk hblocks hcurrent hc _ hspan =>
    exact htiling.dropBlank hs hspan (by simp [hc])
      (by simp [Outcome.found, Outcome.finding?, claimed, State.textSpans, State.clearWindow])
      (by simp [Outcome.found, Outcome.finding?]) hnext rfl
  | openBlock hk hc _ _ hspan =>
    exact htiling.dropBlank hs hspan (by simp [hc])
      (by simp [Outcome.found, Outcome.finding?, claimed, State.textSpans, State.clearWindow,
        State.openBlock])
      (by simp [Outcome.found, Outcome.finding?]) hnext rfl
  | rejectContent hk hblocks hcurrent hc _ start stop hspan =>
    exact hfinding _ (by simp [Issue.key]) hspan (by simp [hc]) (fun _ => rfl) rfl
  | openUnclaimed hk hc _ _ start stop hspan =>
    refine hfinding _ (key_headerIssue_ne _) hspan (by simp [hc]) ?_ rfl
    intro items
    simp [claimed, State.textSpans, State.clearWindow, State.openBlock]
  | strayContent hk hcurrent hc _ start stop hspan =>
    exact hfinding _ (by simp [Issue.key]) hspan (by simp [hc]) (fun _ => rfl) rfl
  | strayBrace hk hcurrent hc _ hspan hblocks =>
    -- the brace itself is the span
    have hlt : s.position < s.position.nextColumn := s.position.lt_nextColumn
    have hstop : s.position.nextColumn = s.next := by
      rw [hs.next, Position.advance_of_ne (by simp [hc])]
    have hperm := claimed_append_spanning items s .strayBrace (by simp [Issue.key]) hlt
    refine htiling.add ⟨s.position, s.position.nextColumn⟩ hperm
      (Or.inr ⟨.spanning .strayBrace s.position s.position.nextColumn, ?_, rfl⟩) hnext
      ⟨⟨c, s.position⟩, by simp [hs.cells], rfl⟩ hlt (le_of_eq hstop)
      (by intro cell hcell; cases hcell) ?_
    · exact (structuralFindings_append _ _).trans
        (congrArg _ (structuralFindings_spanning (by simp [Issue.key]) _ _))
    · intro cell hcell htext _
      rw [hs.cells] at hcell
      rcases List.mem_append.1 hcell with hcell | hcell
      · simp [isText_of_blank (Cell.span?_eq_none_iff.1 hspan cell hcell)] at htext
      · rw [List.mem_singleton.1 hcell]
        exact Or.inr ⟨le_refl _, hlt⟩
  | openWhitespace hk hcurrent hc hblank w hw =>
    have hsub : ∀ cell ∈ w.cells, cell ∈ s.window.cells := by
      rcases hw with ⟨offset, hbreak, rfl⟩ | ⟨-, -, rfl⟩
      · obtain ⟨front, hcells, -⟩ := hs.window.exists_dropBefore hbreak
        intro cell hcell
        rw [hcells]
        exact List.mem_append_right _ hcell
      · exact fun _ h => h
    refine htiling.drop (by simp [Outcome.found, Outcome.finding?, claimed, State.textSpans,
      State.openToken]) (by simp [Outcome.found, Outcome.finding?]) hnext hsub ?_
    intro cell hcell htext _
    have hvisible := isVisible_of_isText htext
    rw [Cell.isVisible, hs.window.isBlank_iff.1 hblank cell hcell] at hvisible
    exact absurd hvisible (by simp)
  | _ => simp [Outcome.token?] at ht

/-! ### Finished tokens -/

@[simp] theorem structuralFindings_accept (s : State) (t : Token) :
    structuralFindings (s.accept t).1 = [] := by
  unfold State.accept
  split <;> simp [structuralFindings]

@[simp] theorem structuralFindings_complete (s : State) (t : Token) :
    structuralFindings (s.complete t).1 = [] :=
  structuralFindings_accept _ t

theorem textSpans_ofLeaf {id : TokenId} {content : Leaf} {start stop : Position}
    (htype : content.type.isText = true) (hlt : start < stop) :
    (Token.ofLeaf id content start stop).textSpans = [⟨start, stop⟩] := by
  rw [Token.textSpans_eq]
  simp [htype, Token.span, Position.widen_of_lt hlt]

/-- A finished token keeps the tiling, whether its last character is offered again or not. -/
theorem Claim.tiling_of_token (h : Claim s c rule outcome s') (hs : s.Offered cs c)
    (hhidden : ∀ k, s.comment = some k → ∀ p, k.start ≤ p → p < s.next → hidden p)
    (htiling : Tiling hidden (cs ++ [c]) items s) {t : Token} (ht : outcome.token? = some t)
    {s₂ : State} (hblocks : s₂.blocks = (s'.complete t).2.blocks) (hnext : s₂.next = s.next)
    (hwindow : s₂.window.cells =
      if State.continues t.type rule c then [⟨c, s.position⟩] else []) :
    Tiling hidden (cs ++ [c]) (items ++ outcome.found ++ (s'.complete t).1) s₂ := by
  have hclaimed (items : List Item) : (claimed (items ++ (s'.complete t).1) s₂).Perm
      (claimed items s' ++ t.textSpans) := by
    rw [claimed_congr _ hblocks]
    exact claimed_complete items s' t
  -- the span of a token that begins with the visible text before the character
  have hleaf {id : TokenId} {content : Leaf} {start last : Position} (stop : Position)
      (htoken : t = .ofLeaf id content start stop) (htype : content.type.isText = true)
      (hfound : outcome.found = []) (hkeep : s'.blocks = s.blocks)
      (hspan : Cell.span? s.window.body = some (start, last)) (hlast : last ≤ stop)
      (hstop : stop ≤ s.next)
      (hcells : s₂.window.cells = [] ∧ (c = '{' ∨ c = '}' ∨ c = ';') ∨
        s₂.window.cells = [⟨c, s.position⟩] ∧ stop ≤ s.position) :
      Tiling hidden (cs ++ [c]) (items ++ outcome.found ++ (s'.complete t).1) s₂ := by
    have hlt : start < stop := lt_of_lt_of_le (hs.ordered_body.start_lt_stop hspan) hlast
    refine htiling.claimText hs hspan hlast hstop ?_ (Or.inl (by simp [hfound])) hnext hcells
    rw [hfound, List.append_nil, ← claimed_congr items hkeep]
    have hspans : t.textSpans = [⟨start, stop⟩] := by rw [htoken, textSpans_ofLeaf htype hlt]
    exact hspans ▸ hclaimed items
  have hlt := hs.position_lt_next
  cases h with
  | closeComment k hk _ _ halone =>
    obtain ⟨-, before, rest, hbody, hblank, hrest⟩ :=
      (hs.coherent.comment k hk).of_standalone halone
    simp only [Outcome.token?, Option.some.injEq] at ht
    subst ht
    refine htiling.drop ?_ (by simp [Outcome.found, Outcome.finding?]) hnext ?_ ?_
    · refine (hclaimed _).trans ?_
      simp [Token.textSpans_eq, OpenComment.close, Leaf.type, TokenType.isText, Outcome.found,
        Outcome.finding?, claimed, State.textSpans]
    · simp [hwindow, OpenComment.close, Leaf.type]
    · intro cell hcell htext hvisible
      have hcells : s.window.cells = before ++ (rest ++ [⟨c, s.position⟩]) := by
        rw [hs.cells, hbody, List.append_assoc]
      have hrest' : (rest ++ [(⟨c, s.position⟩ : Cell)]).head?.map Cell.position =
          some k.start := by
        obtain ⟨slash, hslash, hposition⟩ := Option.map_eq_some_iff.1 hrest
        rw [List.head?_append, hslash, Option.some_or, Option.map_some, hposition]
      rw [hcells] at hcell
      rcases List.mem_append.1 hcell with hcell | hcell
      · simp [isText_of_blank (hblank cell hcell)] at htext
      · exact absurd (hidden_of_comment hs.next_eq hs.cells_sublist hhidden hk hcells hrest'
          hcell) hvisible
  | closeAtRule hk o hcurrent hkind hc | closeProperty hk _ o hcurrent name hkind hc =>
    simp only [Outcome.token?, Option.some.injEq] at ht
    obtain ⟨last, hspan⟩ := (hs.coherent.current hk o hcurrent).span (by simp [hkind])
    obtain ⟨-, hlast, -, hle⟩ := hs.bodyStop_of_span hspan
    -- a semicolon belongs to the token, a brace is offered again
    rcases hc with rfl | rfl
    · refine hleaf s.next ht.symm rfl rfl rfl hspan (le_trans hle (le_of_lt hlt))
        (le_refl _) (Or.inl ⟨?_, by simp⟩)
      simp [hwindow, ← ht, OpenToken.close, Leaf.type]
    · refine hleaf s.bodyStop ht.symm rfl rfl rfl hspan (by rw [hlast])
        (by rw [hlast]; exact le_trans hle (le_of_lt hlt)) (Or.inr ⟨?_, by rw [hlast]; exact hle⟩)
      simp [hwindow, ← ht, OpenToken.close, Leaf.type]
  | selector hk hc _ _ _ start stop hspan =>
    simp only [Outcome.token?, Option.some.injEq] at ht
    obtain ⟨-, -, -, hle⟩ := hs.bodyStop_of_span hspan
    refine hleaf stop ht.symm rfl rfl rfl hspan (le_refl _) (le_trans hle (le_of_lt hlt))
      (Or.inr ⟨?_, hle⟩)
    simp [hwindow, ← ht, Leaf.type, hc]
  | closeBlock hk hcurrent hc _ hspan b blocks hb =>
    simp only [Outcome.token?, Option.some.injEq] at ht
    subst ht
    refine htiling.dropBlank hs hspan (by simp [hc]) ?_
      (by simp [Outcome.found, Outcome.finding?]) hnext (by simp [hwindow, OpenBlock.close])
    refine (hclaimed _).trans ?_
    simpa [Outcome.found, Outcome.finding?] using claimed_close hb s.next
  | closeBlockAfter hk hcurrent hc _ start stop hspan b blocks hb =>
    simp only [Outcome.token?, Option.some.injEq] at ht
    subst ht
    obtain ⟨-, -, -, hle⟩ := hs.bodyStop_of_span hspan
    have hissue : (Issue.strayContent s.trimmedBody).key ≠ .unclosedToken := by simp [Issue.key]
    refine htiling.claimText hs hspan (le_refl _) (le_trans hle (le_of_lt hlt)) ?_
      (Or.inr ⟨.spanning (.strayContent s.trimmedBody) start stop, ?_, rfl⟩) hnext
      (Or.inl ⟨by simp [hwindow, OpenBlock.close], by simp [hc]⟩)
    · refine (hclaimed _).trans ((claimed_close hb s.next).trans ?_)
      exact claimed_append_spanning items s _ hissue (hs.ordered_body.start_lt_stop hspan)
    · simp only [Outcome.found, Outcome.finding?, Option.toList_some, List.map_cons, List.map_nil,
        structuralFindings_append, structuralFindings_complete, List.append_nil,
        structuralFindings_spanning hissue]
  | closeWhitespace hk o hcurrent hkind hc =>
    simp only [Outcome.token?, Option.some.injEq] at ht
    obtain ⟨hblank, hstart⟩ := (OpenToken.begins_whitespace_iff hkind).1
      (hs.coherent.current hk o hcurrent)
    obtain ⟨first, hfirst, hposition⟩ := Option.map_eq_some_iff.1 hstart
    have hmem : first ∈ s.window.body := List.mem_of_head? hfirst
    have hlt' : o.start < s.position := by
      rw [← hposition]
      exact lt_of_lt_of_le first.position_lt_stop (hs.stop_le_position hmem)
    have hcells : s₂.window.cells = [⟨c, s.position⟩] := by
      simp [hwindow, ← ht, OpenToken.close, Leaf.type]
    refine htiling.add ⟨o.start, s.position⟩ ?_ (Or.inl (by simp [Outcome.found,
      Outcome.finding?])) hnext ⟨first, by simp [hs.cells, hmem], hposition⟩ hlt' (le_of_lt hlt)
      ?_ ?_
    · refine (hclaimed _).trans ?_
      rw [← ht, OpenToken.close, textSpans_ofLeaf rfl hlt']
      simp [Outcome.found, Outcome.finding?, claimed, State.textSpans]
    · intro cell hcell
      rw [hcells, List.mem_singleton] at hcell
      rw [hcell]
      exact ⟨by simp [hs.cells], le_refl _⟩
    · intro cell hcell htext _
      rw [hs.cells] at hcell
      rcases List.mem_append.1 hcell with hcell | hcell
      · simp [isText_of_blank (hblank cell hcell)] at htext
      · exact Or.inl (by rw [hcells]; exact hcell)
  | _ => simp [Outcome.token?] at ht

end Step

/-! ## A run -/

/-- The position lies in a comment: when some part `before` of the text had been scanned, a comment
was open that had begun at or before the position, and the position is no later than the character
scanned next. -/
def Commented (cs : List Char) (p : Position) : Prop :=
  ∃ before after k, cs = before ++ after ∧ (State.after {} before).comment = some k ∧
    k.start ≤ p ∧ p < Position.start.advanceAll (before ++ after.take 1)

theorem Commented.concat {cs : List Char} {p : Position} (h : Commented cs p) (c : Char) :
    Commented (cs ++ [c]) p := by
  obtain ⟨before, after, k, rfl, hk, hle, hlt⟩ := h
  refine ⟨before, after ++ [c], k, by simp, hk, hle, lt_of_lt_of_le hlt ?_⟩
  cases after with
  | nil => simpa using Position.le_advanceAll _ [c]
  | cons a after => simp

namespace State

theorem preserves_tiling (hidden : Position → Prop) (cs : List Char) (c : Char) :
    Preserves c
      (fun items s => s.Offered cs c ∧
        (∀ k, s.comment = some k → ∀ p, k.start ≤ p → p < s.next → hidden p) ∧
        Tiling hidden (cs ++ [c]) items s)
      (fun items s => s.OfferedAgain cs c ∧ Tiling hidden (cs ++ [c]) items s)
      (fun items s => Tiling hidden (cs ++ [c]) items s) where
  last h := h.1.last
  first_of_again h := ⟨h.1.toOffered, by simp [h.1.comment_eq_none], h.2⟩
  done_of_again h := h.2
  done_of_skip h _ := h.2.2
  done_of_claim h hclaim ht := hclaim.tiling h.1 h.2.1 h.2.2 ht
  done_of_token h hclaim ht hcontinues :=
    hclaim.tiling_of_token h.1 h.2.1 h.2.2 ht rfl (by simp [hclaim.next_eq])
      (by simp [hcontinues, Window.cells])
  again_of_token h hclaim ht hcontinues :=
    ⟨hclaim.offeredAgain h.1 ht,
      hclaim.tiling_of_token h.1 h.2.1 h.2.2 ht rfl (by simp [pushAgain, hclaim.next_eq])
        (by simp [hcontinues, pushAgain, Window.cells, Window.push, hclaim.position_eq])⟩

theorem tiling_empty : Tiling (Commented []) [] [] {} where
  disjoint := List.Pairwise.nil
  nonempty := by simp [claimed, textSpans, Stylesheet.textSpans]
  stop_le_next := by simp [claimed, textSpans, Stylesheet.textSpans]
  stop_le_cell := by simp [claimed, textSpans, Stylesheet.textSpans]
  covered := by simp
  findings := List.Pairwise.nil

/-- Scanning tiles every text. -/
theorem tiling_after (cs : List Char) :
    Tiling (Commented cs) cs (itemsOf {} cs) (State.after {} cs) := by
  induction cs using List.reverseRecOn with
  | nil => exact tiling_empty
  | append_singleton cs c ih =>
    have hs := settled_after cs
    have hhidden : ∀ k, ((State.after {} cs).arrive c).comment = some k → ∀ p, k.start ≤ p →
        p < ((State.after {} cs).arrive c).next → Commented (cs ++ [c]) p := by
      intro k hk p hle hlt
      refine ⟨cs, [c], k, rfl, hk, hle, lt_of_lt_of_le hlt ?_⟩
      simp [arrive, hs.next]
    rw [itemsOf_concat, after_concat]
    exact (preserves_tiling (Commented (cs ++ [c])) cs c).scan _
      ⟨hs.arrive c, hhidden, ih.arrive (fun p hp => hp.concat c) hs c⟩

end State

end Scan

end Stylesheet
