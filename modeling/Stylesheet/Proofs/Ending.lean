import Stylesheet.Proofs.Scan.Stack
import Stylesheet.Proofs.Scoping

set_option autoImplicit false

/-! # The end of the source

When the source ends, everything that is still open is closed and reported: first a comment, then a
declaration or an at-rule, and then the blocks from the inside out. What is closed becomes the last
child of the block it is in, and only what no block is around comes out. Pending text that became
nothing is reported last. `State.Settled.items_finish` is this list, and `Source.ending` says in
addition where the reports about blocks begin. -/

namespace Stylesheet

/-- The open block, closed at `stop`, with `inner` as one more child. -/
def OpenBlock.closedAround (b : OpenBlock) (inner : Option Token) (stop : Position) : Token :=
  .block { id := b.id, start := b.start, stop }
    (b.children ++ (inner.map (·.childOf b.id (b.children.getLast?.map Token.id))).toList)

theorem OpenBlock.close_eq {b : OpenBlock} {stop : Position} (h : b.start < stop) :
    b.close stop = b.closedAround none stop := by
  simp [close, closedAround, Token.ofChildren, Placement.detached, Position.widen_of_lt h]

theorem OpenBlock.closedAround_add (b : OpenBlock) (t : Token) (stop : Position) :
    (b.add t).closedAround none stop = b.closedAround (some t) stop := by
  have hlast : b.children.getLast? = b.recent.head? := by simp [children]
  rw [closedAround, closedAround, children_add, hlast]
  simp [add]

/-- The report that something is open from `start` to the end of the source at `stop`. -/
def Item.unclosed (type : TokenType) (start stop : Position) : Item :=
  .finding ⟨.unclosed type, start, stop⟩

namespace Scan

/-- The open blocks, innermost first, closed one in the other: `inner` becomes the last child of the
innermost, and each block the last child of the next one out. -/
def nest (stop : Position) : (inner : Option Token) → List OpenBlock → Option Token
  | inner, [] => inner
  | inner, b :: around => nest stop (some (b.closedAround inner stop)) around

theorem nest_add (stop : Position) (b : OpenBlock) (t : Token) (around : List OpenBlock) :
    nest stop none (b.add t :: around) = nest stop (some t) (b :: around) := by
  rw [nest, nest, OpenBlock.closedAround_add]

/-! ## Blocks -/

/-- What the end of the source makes of the open blocks and of the token closed in them. -/
def endOfBlocks (stop : Position) (last : Option TokenId) (inner : Option Token)
    (blocks : List OpenBlock) : List Item :=
  blocks.map (fun b => .unclosed .block b.headerStart stop) ++
    (nest stop inner blocks).toList.map fun t => .token (t.linkedAfter last)

theorem items_finishBlock {stop : Position} {last : Option TokenId} {b : OpenBlock}
    {around : List OpenBlock}
    (h : ∀ b' ∈ b :: around, b'.headerStart < stop ∧ b'.start < stop) :
    (State.finishBlock stop last b around).items = endOfBlocks stop last none (b :: around) := by
  induction around generalizing b with
  | nil =>
    obtain ⟨hheader, hstart⟩ := h b (List.mem_cons_self ..)
    simp [State.finishBlock, endOfBlocks, nest, Item.unclosed, Finding.spanning,
      Position.widen_of_lt hheader, OpenBlock.close_eq hstart]
  | cons outer rest ih =>
    obtain ⟨hheader, hstart⟩ := h b (List.mem_cons_self ..)
    have hrest : ∀ b' ∈ outer.add (b.close stop) :: rest,
        b'.headerStart < stop ∧ b'.start < stop := by
      rw [List.forall_mem_cons] at h ⊢
      exact ⟨h.2 outer (List.mem_cons_self ..), fun b' hb' => h.2 b' (List.mem_cons_of_mem _ hb')⟩
    rw [State.finishBlock, Output.items_append, ih hrest, endOfBlocks, endOfBlocks, nest_add,
      OpenBlock.close_eq hstart]
    simp [nest, Item.unclosed, Finding.spanning, Position.widen_of_lt hheader, OpenBlock.add]

namespace State

variable {s : State} {cs : List Char}

/-- Everything the open blocks begin with stands before the next character. -/
def BlocksBefore (s : State) : Prop := ∀ b ∈ s.blocks, b.headerStart < s.next ∧ b.start < s.next

theorem items_finishBlocks (h : s.BlocksBefore) :
    s.finishBlocks.items = endOfBlocks s.next s.lastTopLevel none s.blocks := by
  unfold finishBlocks
  split
  · next hblocks => simp [hblocks, endOfBlocks, nest]
  · next b around hblocks =>
    rw [hblocks]
    exact items_finishBlock (hblocks ▸ h)

/-- A token that is accepted at the end is closed in the innermost block. -/
theorem items_accept (h : s.BlocksBefore) (t : Token) :
    (s.accept t).1 ++ (s.accept t).2.finishBlocks.items =
      endOfBlocks s.next s.lastTopLevel (some t) s.blocks := by
  cases hblocks : s.blocks with
  | nil => simp [accept, acceptTopLevel, hblocks, finishBlocks, endOfBlocks, nest]
  | cons b around =>
    have hadded : BlocksBefore { s with blocks := b.add t :: around } := by
      unfold BlocksBefore at h ⊢
      rw [hblocks, List.forall_mem_cons] at h
      exact List.forall_mem_cons.2 h
    simp only [accept, hblocks, List.nil_append]
    rw [items_finishBlocks hadded, endOfBlocks, endOfBlocks, nest_add]
    rfl

/-! ## Comments and other tokens -/

/-- The pending text outside an open comment. -/
def outside (s : State) : Window := s.comment.elim s.window fun k => s.window.truncate k.offset

/-- The comment, closed at the end of the source. -/
def endedComment (s : State) (k : OpenComment) : Token :=
  k.close (Payload.cleanComment
    ((Text.slice? (k.offset + 2) s.window.bytes s.window.text).getD [])) s.next

/-- The comment that the end of the source closes, unless it interrupts other text. -/
def endedComment? (s : State) : Option Token :=
  (s.comment.filter (!·.embedded)).map s.endedComment

/-- The open token that the end of the source closes. -/
def endedToken? (s : State) : Option Token :=
  s.current.map fun o => o.close (finalContent o.kind s.outside.text) s.next

/-- The reports about an open comment and an open token. Only indentation may end with the
source. -/
def endFindings (s : State) : List Item :=
  s.comment.toList.map (fun k => .unclosed .comment k.start s.next) ++
    (s.current.toList.filter (·.kind ≠ .whitespace)).map fun o =>
      .unclosed o.kind.type o.start s.next

/-- The report about pending text that is in no comment and belongs to no open token. -/
def residue (s : State) : List Item :=
  if s.current.isSome then []
  else (Cell.span? s.outside.cells).toList.map fun (start, stop) =>
    .finding ⟨.leftover (String.ofList (Text.trim s.outside.text)), start, stop⟩

theorem leftover_eq (h : Cell.Ordered s.window.cells) (hk : s.comment = none)
    (hcurrent : s.current = none) : s.leftover = s.residue := by
  have houtside : s.outside = s.window := by simp [outside, hk]
  rw [leftover, residue, hcurrent, houtside]
  cases hspan : Cell.span? s.window.cells with
  | none => rfl
  | some span => simp [Finding.spanning, Position.widen_of_lt (h.start_lt_stop hspan)]

@[simp] theorem finishBlocks_clearWindow (s : State) :
    s.clearWindow.finishBlocks = s.finishBlocks := rfl

@[simp] theorem leftover_clearWindow (s : State) : s.clearWindow.leftover = [] := rfl

theorem finishCurrent_of_none (h : s.current = none) : s.finishCurrent = ([], s) := by
  simp [finishCurrent, closeCurrent?, h]

/-- Without a comment, the open token is closed in the blocks around it. -/
theorem items_finishCurrent (h : Cell.Ordered s.window.cells) (hk : s.comment = none)
    (hcurrent : ∀ o, s.current = some o → o.start < s.next) (hblocks : s.BlocksBefore) :
    s.finishCurrent.1 ++ s.finishCurrent.2.finishBlocks.items ++ s.finishCurrent.2.leftover =
      s.endFindings ++ endOfBlocks s.next s.lastTopLevel s.endedToken? s.blocks ++ s.residue := by
  cases ho : s.current with
  | none =>
    simp [finishCurrent_of_none ho, ho, endFindings, hk, endedToken?, leftover_eq h hk ho,
      items_finishBlocks hblocks]
  | some o =>
    have hended : s.endedToken? = some (o.close (finalContent o.kind s.window.text) s.next) := by
      simp [endedToken?, ho, outside, hk]
    have hfound : s.endFindings =
        if o.kind.type = .whitespace then [] else [s.unclosed o.kind.type o.start] := by
      cases hkind : o.kind <;>
        simp [endFindings, hk, ho, hkind, OpenKind.type, unclosed, Item.unclosed, Finding.spanning,
          Position.widen_of_lt (hcurrent o ho)]
    have haccept := items_accept (s := { s with current := none }) hblocks
      (o.close (finalContent o.kind s.window.text) s.next)
    rw [hended, ← haccept, hfound]
    simp [finishCurrent, closeCurrent?, ho, OpenToken.close, type_finalContent, residue, unclosed]

/-- Nothing visible stands before a comment that stands alone. -/
theorem Settled.residue_of_standalone (hs : s.Settled cs) {k : OpenComment}
    (hk : s.comment = some k) (hembedded : k.embedded = false) : s.residue = [] := by
  obtain ⟨before, inside, slash, star, hcells, -, -, hsize, -, hinterrupts, -⟩ :=
    hs.coherent.comment k hk
  rw [hembedded, eq_comm, Bool.or_eq_false_iff, Bool.not_eq_false'] at hinterrupts
  have hspan : Cell.span? s.outside.cells = none := by
    rw [outside, hk, Option.elim_some, Window.cells_truncate hcells hsize, Cell.span?_eq_none_iff]
    simpa [Text.allBlank, Cell.isVisible] using hinterrupts.2
  rw [residue, hspan]
  split <;> rfl

/-- All that the end of the source brings about. -/
theorem Settled.items_finish (hs : s.Settled cs)
    (hcurrent : ∀ o, s.current = some o → o.start < s.next) (hblocks : s.BlocksBefore) :
    s.finish.items = s.endFindings ++
      endOfBlocks s.next s.lastTopLevel (s.endedComment?.or s.endedToken?) s.blocks ++
      s.residue := by
  have hfinish : s.finish.items = s.finishComment.1 ++ (s.finishComment.2.finishCurrent.1 ++
      s.finishComment.2.finishCurrent.2.finishBlocks.items ++
      s.finishComment.2.finishCurrent.2.leftover) := by
    simp [finish]
  have hordered := hs.finishComment.1.ordered
  rw [hfinish]
  cases hk : s.comment with
  | none =>
    have hnone : s.finishComment = ([], s) := by simp [State.finishComment, hk]
    rw [hnone] at hordered ⊢
    rw [items_finishCurrent hordered hk hcurrent hblocks]
    simp [endedComment?, hk]
  | some k =>
    have hunclosed : s.unclosed .comment k.start = .unclosed .comment k.start s.next := by
      simp [unclosed, Item.unclosed, Finding.spanning,
        Position.widen_of_lt (hs.comment_start_lt hk)]
    cases hembedded : k.embedded with
    | true =>
      -- what is left is a state without the comment
      have hstripped : s.finishComment = ([s.unclosed .comment k.start],
          { s with comment := none, window := s.window.truncate k.offset }) := by
        simp [State.finishComment, hk, hembedded]
        rfl
      rw [hstripped] at hordered ⊢
      rw [items_finishCurrent hordered rfl hcurrent hblocks]
      simp [hunclosed, endFindings, endedComment?, endedToken?, residue, outside, hk, hembedded,
        Option.filter]
    | false =>
      have hnone : s.current = none := ((hs.coherent.comment k hk).of_standalone hembedded).1
      have hclosed : s.finishComment = (s.unclosed .comment k.start ::
          ({ s with comment := none }.accept (s.endedComment k)).1,
          ({ s with comment := none }.accept (s.endedComment k)).2.clearWindow) := by
        simp [State.finishComment, hk, hembedded, endedComment]
        rfl
      have haccept := items_accept (s := { s with comment := none }) hblocks (s.endedComment k)
      have hended : s.endedComment?.or s.endedToken? = some (s.endedComment k) := by
        simp [endedComment?, hk, hembedded, Option.filter]
      have hfindings : s.endFindings = [s.unclosed .comment k.start] := by
        simp [endFindings, hk, hnone, hunclosed]
      rw [hended, ← haccept, hfindings, hs.residue_of_standalone hk hembedded, hclosed,
        finishCurrent_of_none (by simpa [clearWindow] using hnone), finishBlocks_clearWindow,
        leftover_clearWindow]
      simp

end State

end Scan

/-! ## Sources -/

namespace Source

open Scan

/-- The open block begins with the selector or at-rule that its brace has finished, or else with the
text that was pending at the brace, or else at the brace. -/
def BlockBegins (source : Source) (b : OpenBlock) : Prop :=
  ∃ before after, source.characters.items = before ++ '{' :: after ∧
    Position.start.advanceAll before = b.start ∧
    ((∃ t ∈ source.tokens, t.IsHeader ∧ source.FinishedBy b.start t ∧ b.headerStart = t.start) ∨
      (∀ t ∈ source.tokens, t.IsHeader → ¬ source.FinishedBy b.start t) ∧
        b.headerStart =
          ((Cell.span? (State.after {} before).window.cells).map Prod.fst).getD b.start)

/-- What is finished early in a source that can be read to its end is in its tokens. -/
theorem mem_tokens_of_finished (source : Source) (h : source.characters.failure = none)
    {before after : List Char} (hsplit : source.characters.items = before ++ after) {t : Token}
    (ht : t ∈ finished (State.itemsOf {} before) (State.after {} before).blocks) :
    t ∈ source.tokens := by
  have hlater := State.finished_subset before after ht
  rw [← hsplit] at hlater
  rw [tokens, items_tokenize h, ← finished_nil]
  exact (extends_finish _ _).subset hlater

/-- A token finished early in a source is the token of the source with its number. -/
theorem eq_of_finished_of_id_eq (source : Source) {before after : List Char}
    (hsplit : source.characters.items = before ++ after) {t u : Token} (ht : t ∈ source.tokens)
    (hu : u ∈ finished (State.itemsOf {} before) (State.after {} before).blocks)
    (hid : t.id = u.id) : t = u := by
  cases hfailure : source.characters.failure with
  | none =>
    exact source.eq_of_id_eq ht (source.mem_tokens_of_finished hfailure hsplit hu) hid
  | some failure =>
    -- nothing is finished by force, so the token has been finished by the characters
    have hlater := State.finished_subset before after hu
    rw [← hsplit] at hlater
    rw [tokens, items_tokenize_of_failure hfailure] at ht
    refine (State.grown_after source.characters.items).toForest.eq_of_mem_finished ?_ hlater hid
    rw [finished, List.flatMap_append]
    exact List.mem_append_left _ ht

/-- The token that a brace has finished is the one that is finished after the brace and was not
before it. -/
theorem finishedBy_iff_mem_finished (source : Source) {before after : List Char}
    (hsplit : source.characters.items = before ++ '{' :: after) {t : Token}
    (ht : t ∈ source.tokens) :
    source.FinishedBy (Position.start.advanceAll before) t ↔
      t ∈ finished (State.itemsOf {} (before ++ ['{']))
          (State.after {} (before ++ ['{'])).blocks ∧
        t ∉ finished (State.itemsOf {} before) (State.after {} before).blocks := by
  have hsplit' : source.characters.items = before ++ ['{'] ++ after := by simpa using hsplit
  rw [source.finishedBy_advanceAll hsplit, finishedId?_eq_some_iff]
  constructor
  · rintro ⟨u, hu, hnot, hid⟩
    obtain rfl := source.eq_of_finished_of_id_eq hsplit' ht hu hid.symm
    exact ⟨hu, hnot⟩
  · rintro ⟨hmem, hnot⟩
    exact ⟨t, hmem, hnot, rfl⟩

theorem blockBegins_of_mem (source : Source) (h : source.characters.failure = none)
    {b : OpenBlock} (hb : b ∈ (State.after {} source.characters.items).blocks) :
    source.BlockBegins b := by
  obtain ⟨-, before, after, hsplit, hposition, hbegins⟩ :=
    (stacked_after source.characters.items).begun b.header (List.mem_map_of_mem hb)
  have hposition' : b.start = Position.start.advanceAll before := hposition.symm
  have hsplit' : source.characters.items = before ++ ['{'] ++ after := by simpa using hsplit
  have hmem {t : Token} := source.mem_tokens_of_finished h hsplit' (t := t)
  refine ⟨before, after, hsplit, hposition, ?_⟩
  simp only [hposition', source.finishedBy_advanceAll hsplit]
  rcases hbegins with ⟨t, ht, hheader, hid, hstart⟩ | ⟨hother, hstart⟩
  · exact Or.inl ⟨t, hmem ht, hheader, hid, hstart⟩
  · refine Or.inr ⟨?_, hstart⟩
    intro t ht hheader hid
    obtain ⟨u, hu, huid, hunot⟩ := hother _ hid
    rw [source.eq_of_id_eq (hmem hu) ht huid] at hunot
    exact hunot hheader

/-- At the end of a source an open comment and an open declaration or at-rule are reported, and at
most one token is closed besides the blocks. Then the open blocks are reported from the inside out,
each from where it begins to the end, and they come out as one token, each in the next. Pending text
that became nothing is reported last. -/
theorem ending (source : Source) (h : source.characters.failure = none) :
    let s := State.after {} source.characters.items
    let stop := Position.start.advanceAll source.characters.items
    source.tokenize.items = State.itemsOf {} source.characters.items ++ s.finish.items ∧
      s.next = stop ∧ (s.endedComment? = none ∨ s.endedToken? = none) ∧
      s.finish.items = s.endFindings ++
        endOfBlocks stop s.lastTopLevel (s.endedComment?.or s.endedToken?) s.blocks ++ s.residue ∧
      (s.blocks.map OpenBlock.headerStart).Pairwise (· > ·) ∧
      ∀ b ∈ s.blocks, b.headerStart < stop ∧ source.BlockBegins b := by
  intro s stop
  have hs := State.settled_after source.characters.items
  have hstacked := stacked_after source.characters.items
  obtain ⟨-, hcurrent, hstarts⟩ := (State.grown_after source.characters.items).start_lt_next hs
  have hle (b : OpenBlock) (hb : b ∈ s.blocks) : b.headerStart ≤ b.start :=
    (hstacked.begun b.header (List.mem_map_of_mem hb)).1
  have hblocks : s.BlocksBefore := fun b hb =>
    ⟨lt_of_le_of_lt (hle b hb) (hstarts b hb), hstarts b hb⟩
  refine ⟨items_tokenize h, hs.next, ?_, ?_, ?_, ?_⟩
  · cases hk : s.comment with
    | none => exact Or.inl (by simp [State.endedComment?, hk])
    | some k =>
      cases hembedded : k.embedded with
      | true => exact Or.inl (by simp [State.endedComment?, hk, hembedded, Option.filter])
      | false =>
        have hnone : s.current = none := ((hs.coherent.comment k hk).of_standalone hembedded).1
        exact Or.inr (by simp [State.endedToken?, hnone])
  · rw [hs.items_finish hcurrent hblocks, hs.next]
  · -- a header ends at its brace, before the header of the next block begins
    have hapart := hstacked.apart
    rw [State.headers, List.pairwise_map] at hapart
    rw [List.pairwise_map]
    exact hapart.imp_of_mem fun _ houter hlt => lt_of_le_of_lt (hle _ houter) hlt
  · intro b hb
    exact ⟨lt_of_lt_of_eq (hblocks b hb).1 hs.next, source.blockBegins_of_mem h hb⟩

/-- A block in a block, with a declaration and a comment in it, and nothing closed. -/
theorem ending_nested :
    let source := ofString "@media x\x7ba!\x7bb:c/*"
    let s := State.after {} source.characters.items
    source.characters.failure = none ∧
      s.finish.items = s.endFindings ++
        endOfBlocks ⟨1, 18⟩ s.lastTopLevel (s.endedComment?.or s.endedToken?) s.blocks ++
        s.residue ∧
      findingsOf s.finish.items =
        [⟨.unclosed .comment, ⟨1, 16⟩, ⟨1, 18⟩⟩, ⟨.unclosed .property, ⟨1, 13⟩, ⟨1, 18⟩⟩,
          ⟨.unclosed .block, ⟨1, 10⟩, ⟨1, 18⟩⟩, ⟨.unclosed .block, ⟨1, 1⟩, ⟨1, 18⟩⟩] ∧
      ∀ b ∈ s.blocks, source.BlockBegins b := by
  intro source s
  have hcharacters : source.characters = { items := "@media x\x7ba!\x7bb:c/*".toList } := by
    rw [characters_ofString]
    decide +kernel
  have hfailure : source.characters.failure = none := by rw [hcharacters]
  obtain ⟨-, -, -, hitems, -, hbegins⟩ := source.ending hfailure
  have hstop : Position.start.advanceAll source.characters.items = ⟨1, 18⟩ := by
    rw [hcharacters]
    decide +kernel
  rw [hstop] at hitems
  refine ⟨hfailure, hitems, ?_, fun b hb => (hbegins b hb).2⟩
  show findingsOf (State.after {} source.characters.items).finish.items = _
  rw [hcharacters]
  decide +kernel

end Source

end Stylesheet
