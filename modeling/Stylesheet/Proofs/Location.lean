import Stylesheet.Proofs.SourceText

set_option autoImplicit false

/-! # Where the characters of a selector stand

Comments are taken out of the text of a selector, so an offset into it does not tell a source
position by itself. The anchors of the selector do: the last anchor not after an offset, moved over
the text in between, leads to the character that stands there (`Window.leads_anchorsFrom`). An
anchor is set wherever the next character does not stand where the one before it ends, so between
two anchors the text is read without a gap. -/

namespace Stylesheet

/-! ## Following anchors -/

namespace Anchor

/-- The last of the anchors that is not after the offset, or else the given one. -/
def lastBefore (offset : Nat) (anchors : List Anchor) (base : Anchor) : Anchor :=
  (anchors.reverse.find? (·.offset ≤ offset)).getD base

/-- The position that the anchor leads to, over the text from its own offset on. -/
def reach (a : Anchor) (text : List Char) (offset : Nat) : Position :=
  a.position.advanceAll ((Text.slice? a.offset offset text).getD [])

theorem lastBefore_cons (offset : Nat) (a : Anchor) (anchors : List Anchor) (base : Anchor) :
    lastBefore offset (a :: anchors) base =
      lastBefore offset anchors (if a.offset ≤ offset then a else base) := by
  rw [lastBefore, lastBefore, List.reverse_cons, List.find?_append]
  cases anchors.reverse.find? (·.offset ≤ offset) with
  | some found => rfl
  | none => by_cases h : a.offset ≤ offset <;> simp [h]

theorem lastBefore_of_lt {offset : Nat} {anchors : List Anchor}
    (h : ∀ a ∈ anchors, offset < a.offset) (base : Anchor) :
    lastBefore offset anchors base = base := by
  have hnone : anchors.reverse.find? (·.offset ≤ offset) = none := by
    rw [List.find?_eq_none]
    intro a ha
    simpa using h a (List.mem_reverse.1 ha)
  rw [lastBefore, hnone]
  rfl

/-- Over the text `read`, which the anchor has its offset in, it leads to the position `p`. -/
def Leads (a : Anchor) (read : List Char) (p : Position) : Prop :=
  ∃ before middle, read = before ++ middle ∧ Text.byteSize before = a.offset ∧
    a.position.advanceAll middle = p

theorem leads_self (read : List Char) (p : Position) :
    Leads ⟨Text.byteSize read, p⟩ read p :=
  ⟨read, [], by simp, rfl, rfl⟩

theorem Leads.advance {a : Anchor} {read : List Char} {p : Position} (h : a.Leads read p)
    (c : Char) : a.Leads (read ++ [c]) (p.advance c) := by
  obtain ⟨before, middle, rfl, hbefore, rfl⟩ := h
  exact ⟨before, middle ++ [c], by simp, hbefore, by simp⟩

theorem Leads.reach_eq {a : Anchor} {read : List Char} {p : Position} (h : a.Leads read p)
    (after : List Char) : a.reach (read ++ after) (Text.byteSize read) = p := by
  obtain ⟨before, middle, rfl, hbefore, rfl⟩ := h
  rw [reach, ← hbefore, Text.slice?_append, Option.getD_some]

end Anchor

theorem Token.locateIn_eq (start : Position) (anchors : List Anchor) (text : String)
    (offset : Nat) :
    locateIn start anchors text offset =
      (Anchor.lastBefore offset anchors ⟨0, start⟩).reach text.toList offset := rfl

namespace Window

/-- Anchors are counted from the first byte of the cells. -/
theorem anchorsFrom_shift (first last offset : Nat) (expected : Option Position)
    (cells : List Cell) :
    anchorsFrom first (first + last) (first + offset) expected cells =
      anchorsFrom 0 last offset expected cells := by
  induction cells generalizing offset expected with
  | nil => rfl
  | cons cell cells ih =>
    simp only [anchorsFrom, Nat.add_le_add_iff_left, Nat.add_assoc, ih, Nat.le_add_right,
      Nat.zero_le, true_and, Nat.add_sub_cancel_left, Nat.sub_zero]

/-- Cells before the first byte have no anchors, but the next one is expected right after them. -/
theorem anchorsFrom_skip (first last offset : Nat) (expected : Option Position)
    {blanks : List Cell} (hfirst : offset + Text.byteSize (Cell.text blanks) = first)
    (hlast : first ≤ last) (cells : List Cell) :
    ∃ expected', anchorsFrom first last offset expected (blanks ++ cells) =
      anchorsFrom first last first expected' cells := by
  induction blanks generalizing offset expected with
  | nil =>
    obtain rfl : offset = first := hfirst
    exact ⟨expected, rfl⟩
  | cons blank blanks ih =>
    have hpos : 0 < blank.char.utf8Size := blank.char.utf8Size_pos
    simp only [List.map_cons, Text.byteSize_cons] at hfirst
    obtain ⟨expected', hrest⟩ := ih (offset + blank.char.utf8Size)
      (some (blank.position.advance blank.char)) (by simp only [Cell.text]; omega)
    refine ⟨expected', ?_⟩
    rw [List.cons_append, anchorsFrom, if_neg (by omega), if_neg (by omega)]
    exact hrest

/-- Cells after the last byte have no anchors. -/
theorem anchorsFrom_append {last offset : Nat} (expected : Option Position) {cells : List Cell}
    (hlast : offset + Text.byteSize (Cell.text cells) = last) (rest : List Cell) :
    anchorsFrom 0 last offset expected (cells ++ rest) =
      anchorsFrom 0 last offset expected cells := by
  induction cells generalizing offset expected with
  | nil =>
    obtain rfl : offset = last := hlast
    cases rest with
    | nil => rfl
    | cons cell rest => simp [anchorsFrom]
  | cons cell cells ih =>
    simp only [List.map_cons, Text.byteSize_cons] at hlast
    simp only [List.cons_append, anchorsFrom]
    rw [ih _ (by simp only [Cell.text]; omega)]

/-- The anchors of a part of the window are those of its cells alone. -/
theorem anchors_eq {w : Window} {blanks cells rest : List Cell}
    (hcells : w.cells = blanks ++ (cells ++ rest)) :
    ∃ expected, w.anchors (Text.byteSize (Cell.text blanks))
        (Text.byteSize (Cell.text blanks) + Text.byteSize (Cell.text cells)) =
      anchorsFrom 0 (Text.byteSize (Cell.text cells)) 0 expected cells := by
  obtain ⟨expected, hskip⟩ := anchorsFrom_skip (Text.byteSize (Cell.text blanks))
    (Text.byteSize (Cell.text blanks) + Text.byteSize (Cell.text cells)) 0 none
    (Nat.zero_add _) (Nat.le_add_right _ _) (cells ++ rest)
  refine ⟨expected, ?_⟩
  rw [anchors, hcells, hskip]
  have hshift := anchorsFrom_shift (Text.byteSize (Cell.text blanks))
    (Text.byteSize (Cell.text cells)) 0 expected (cells ++ rest)
  rw [Nat.add_zero] at hshift
  rw [hshift, anchorsFrom_append expected (Nat.zero_add _)]

theorem le_offset_of_mem_anchorsFrom {last offset : Nat} {expected : Option Position}
    {cells : List Cell} {a : Anchor} (h : a ∈ anchorsFrom 0 last offset expected cells) :
    offset ≤ a.offset := by
  induction cells generalizing offset expected with
  | nil => simp [anchorsFrom] at h
  | cons cell cells ih =>
    have hrest {expected : Option Position}
        (h : a ∈ anchorsFrom 0 last (offset + cell.char.utf8Size) expected cells) :
        offset ≤ a.offset := le_trans (Nat.le_add_right _ _) (ih h)
    simp only [anchorsFrom] at h
    split at h
    · simp at h
    · split at h
      · rcases List.mem_cons.1 h with rfl | h
        · exact le_refl _
        · exact hrest h
      · exact hrest h

theorem byteSize_lt_of_cons {read : List Char} {cell : Cell} {cells : List Cell} {last : Nat}
    (h : Text.byteSize (read ++ Cell.text (cell :: cells)) ≤ last) : Text.byteSize read < last := by
  have hpos : 0 < cell.char.utf8Size := cell.char.utf8Size_pos
  simp only [Cell.text, List.map_cons, Text.byteSize_append, Text.byteSize_cons] at h
  omega

/-- The next cell stands where the last anchor leads to, or has an anchor of its own. Either way
some anchor leads to it. -/
theorem exists_leads_cons {base : Anchor} {read : List Char} {p : Position} {cell : Cell}
    {expected : Option Position} {last offset : Nat} (hbase : base.Leads read p)
    (hcell : expected.isSome = true ∧ expected ≠ some cell.position ∨ p = cell.position)
    (hlast : Text.byteSize read < last) (hoffset : Text.byteSize read ≤ offset)
    (cells : List Cell) :
    ∃ base' : Anchor, base'.Leads read cell.position ∧
      Anchor.lastBefore offset (anchorsFrom 0 last (Text.byteSize read) expected (cell :: cells))
          base =
        Anchor.lastBefore offset (anchorsFrom 0 last (Text.byteSize (read ++ [cell.char]))
          (some cell.stop) cells) base' := by
  have hsize : Text.byteSize (read ++ [cell.char]) = Text.byteSize read + cell.char.utf8Size := by
    simp
  simp only [anchorsFrom, if_neg (Nat.not_le.2 hlast), Nat.zero_le, true_and, Nat.sub_zero]
  rw [hsize]
  split
  · refine ⟨_, Anchor.leads_self read cell.position, ?_⟩
    rw [Anchor.lastBefore_cons, if_pos hoffset]
    rfl
  · next hjump =>
    have hp : p = cell.position := hcell.resolve_left hjump
    exact ⟨base, hp ▸ hbase, rfl⟩

/-- The last anchor not after an offset leads to the cell that stands there, and at the end to the
end of the last cell. -/
theorem leads_anchorsFrom {base : Anchor} {read : List Char} {p : Position}
    {before after : List Cell} {expected : Option Position} {last : Nat}
    (hbase : base.Leads read p)
    (hfirst : ∀ cell, (before ++ after).head? = some cell →
      expected.isSome = true ∧ expected ≠ some cell.position ∨ p = cell.position)
    (hlast : Text.byteSize (read ++ Cell.text (before ++ after)) ≤ last) :
    (Anchor.lastBefore (Text.byteSize (read ++ Cell.text before))
        (anchorsFrom 0 last (Text.byteSize read) expected (before ++ after)) base).Leads
      (read ++ Cell.text before)
      ((after.head?.map Cell.position).getD ((before.getLast?.map Cell.stop).getD p)) := by
  induction before generalizing base read p expected with
  | nil =>
    rw [Cell.text, List.map_nil, List.append_nil]
    cases after with
    | nil => exact hbase
    | cons cell after =>
      obtain ⟨base', hbase', hsame⟩ := exists_leads_cons hbase (hfirst cell rfl)
        (byteSize_lt_of_cons hlast) (le_refl _) after
      rw [List.nil_append, hsame, Anchor.lastBefore_of_lt]
      · exact hbase'
      · intro a ha
        refine lt_of_lt_of_le ?_ (le_offset_of_mem_anchorsFrom ha)
        exact byteSize_lt_of_cons (le_refl (Text.byteSize (read ++ Cell.text [cell])))
  | cons cell before ih =>
    have hread (cells : List Cell) :
        read ++ Cell.text (cell :: cells) = read ++ [cell.char] ++ Cell.text cells := by simp
    have hle : Text.byteSize read ≤ Text.byteSize (read ++ Cell.text (cell :: before)) := by simp
    obtain ⟨base', hbase', hsame⟩ := exists_leads_cons hbase (hfirst cell rfl)
      (byteSize_lt_of_cons hlast) hle (before ++ after)
    have hstop : (before.getLast?.map Cell.stop).getD cell.stop =
        ((cell :: before).getLast?.map Cell.stop).getD p := by
      rw [List.getLast?_cons]
      cases before.getLast? <;> rfl
    rw [List.cons_append, hsame, hread, ← hstop]
    -- the cell is read, and where it ends the next one is expected
    refine ih (hbase'.advance cell.char) ?_ ?_
    · intro next _
      by_cases h : cell.stop = next.position
      · exact Or.inr h
      · exact Or.inl ⟨rfl, by simpa using h⟩
    · rw [← hread]
      exact hlast

end Window

/-! ## The selectors of a run -/

/-- Through the anchors, every offset into the text of the cells is located at the cell that begins
there, and the end of the text at `stop`. -/
def Anchor.Locate (anchors : List Anchor) (start stop : Position) (cells : List Cell) : Prop :=
  ∀ before after, cells = before ++ after →
    Token.locateIn start anchors (String.ofList (Cell.text cells))
        (Text.byteSize (Cell.text before)) =
      (after.head?.map Cell.position).getD stop

/-- The anchors that a window gives for a part of its text locate that part. -/
theorem Window.locate_anchors {w : Window} {blanks cells rest : List Cell} {start stop : Position}
    (hcells : w.cells = blanks ++ (cells ++ rest))
    (hstart : cells.head?.map Cell.position = some start)
    (hstop : cells.getLast?.map Cell.stop = some stop) :
    Anchor.Locate (w.anchors (Text.byteSize (Cell.text blanks))
      (Text.byteSize (Cell.text blanks) + Text.byteSize (Cell.text cells))) start stop cells := by
  obtain ⟨expected, hanchors⟩ := Window.anchors_eq hcells
  rintro before after rfl
  have hfirst (cell : Cell) (hcell : (before ++ after).head? = some cell) :
      expected.isSome = true ∧ expected ≠ some cell.position ∨ start = cell.position := by
    rw [hcell, Option.map_some, Option.some.injEq] at hstart
    exact Or.inr hstart.symm
  have hleads := Window.leads_anchorsFrom (Anchor.leads_self [] start) hfirst (le_refl _)
  have hreach := hleads.reach_eq (Cell.text after)
  rw [Token.locateIn_eq, hanchors, String.toList_ofList]
  simp only [List.nil_append, Text.byteSize_nil, Cell.text, ← List.map_append] at hreach ⊢
  rw [hreach]
  -- at the end of the text the last cell decides
  cases after with
  | cons cell after => rfl
  | nil =>
    rw [List.append_nil] at hstop
    simp [hstop]

open Scan

/-- A selector's text is that of the cells it covers, which are of the selector alphabet, and its
anchors locate them. -/
def Token.Traces (cs : List Char) : Token → Prop
  | .leaf place (.selector text anchors) =>
    text = String.ofList (Cell.text (Cell.between place.start place.stop (uncommented cs))) ∧
      Selector.isSelector text.toList = true ∧
      Anchor.Locate anchors place.start place.stop
        (Cell.between place.start place.stop (uncommented cs))
  | _ => True

theorem Token.traces_of_type {t : Token} (h : t.type ≠ .selector) (cs : List Char) :
    t.Traces cs := by
  cases t with
  | leaf place content =>
    cases content with
    | selector text anchors => exact absurd rfl h
    | _ => trivial
  | block place children => trivial

theorem Token.Traces.withPlace {cs : List Char} {t : Token} (h : t.Traces cs) {p : Placement}
    (hstart : p.start = t.start) (hstop : p.stop = t.stop) : (t.withPlace p).Traces cs := by
  obtain ⟨id, parent, previous, start, stop⟩ := p
  obtain rfl : start = t.start := hstart
  obtain rfl : stop = t.stop := hstop
  cases t with
  | leaf place content => cases content <;> exact h
  | block place children => exact h

/-- One more character leaves the cells of a finished selector as they are. -/
theorem Token.Traces.concat {cs : List Char} {t : Token} (h : t.Traces cs) (c : Char)
    (ht : t ∈ finished (State.itemsOf {} cs) (State.after {} cs).blocks) :
    t.Traces (cs ++ [c]) := by
  cases t with
  | leaf place content =>
    cases content with
    | selector text anchors =>
      have hcells : Cell.between place.start place.stop (uncommented (cs ++ [c])) =
          Cell.between place.start place.stop (uncommented cs) :=
        between_concat (stop_le_of_mem_finished ht rfl)
          (fun k hk => comment_of_mem_finished ht rfl hk)
      rw [Token.Traces, hcells]
      exact h
    | _ => trivial
  | block place children => trivial

namespace Scan

/-- A selector is traced when it is finished. -/
theorem Claim.traces {s s' : State} {cs : List Char} {c : Char} {rule : Rule} {outcome : Outcome}
    (h : Claim s c rule outcome s') (hs : s.Telling cs c) {t : Token}
    (ht : outcome.token? = some t) : t.Traces (cs ++ [c]) := by
  cases h with
  | selector hk hc _ _ hselector start stop hspan anchors hanchors =>
    obtain ⟨front, hfront⟩ := (hs.pending.plain hk).shown
    have hV : uncommented (cs ++ [c]) = front ++ s.window.body ++ [⟨c, s.position⟩] := by
      rw [hs.uncommented_concat hk (by simp [hc]), hfront]
    have hordered := ordered_uncommented (cs ++ [c])
    rw [hV] at hordered
    obtain ⟨blanks, core, trail, hbody, hstart, hstop, hcore, hrest, hbetween⟩ :=
      Cell.exists_between_span hordered hspan
    have hlt : start < stop := hs.ordered_body.start_lt_stop hspan
    obtain rfl : t = _ := (Option.some.inj ht).symm
    rw [Token.ofLeaf, Placement.detached, Position.widen_of_lt hlt, Token.Traces, hV, hbetween,
      hcore]
    refine ⟨rfl, by rwa [String.toList_ofList], ?_⟩
    -- the blanks in front are what the offset of the anchors skips
    have hfirst : Text.byteSize s.bodyText - Text.byteSize (Text.trimStart s.bodyText) =
        Text.byteSize (Cell.text blanks) := by
      have htext : s.bodyText = Cell.text blanks ++ Text.trimStart s.bodyText := by
        rw [State.bodyText, ← hrest]
        conv_lhs => rw [hbody, Cell.text, List.map_append]
      conv_lhs => rw [htext, Text.byteSize_append]
      rw [← htext, Nat.add_sub_cancel]
    have hcells : s.window.cells = blanks ++ (core ++ (trail ++ [⟨c, s.position⟩])) := by
      rw [hs.cells, hbody]
      simp
    rw [hanchors, hfirst, show Text.trim s.bodyText = Cell.text core from hcore.symm]
    exact Window.locate_anchors hcells hstart hstop
  | closeComment | closeAtRule | closeProperty | closeWhitespace | closeBlock
  | closeBlockAfter =>
    obtain rfl : t = _ := (Option.some.inj ht).symm
    refine Token.traces_of_type ?_ _
    simp [OpenToken.close, OpenComment.close, OpenBlock.close, Leaf.type]
  | _ => simp [Outcome.token?] at ht

/-- Every selector that a run has finished is traced. -/
theorem State.traces_after (cs : List Char) :
    ∀ t ∈ finished (State.itemsOf {} cs) (State.after {} cs).blocks, t.Traces cs :=
  State.forall_finished (P := Token.Traces)
    (fun hs h ht hstart hstop => (h.traces hs ht).withPlace hstart hstop)
    (fun c ht h => h.concat c ht) cs

end Scan

namespace Source

/-- A selector of a source has been finished by one of its characters. -/
theorem mem_finished_of_selector (source : Source) {t : Token} (ht : t ∈ source.tokens)
    (htype : t.type = .selector) :
    t ∈ finished (State.itemsOf {} source.characters.items)
      (State.after {} source.characters.items).blocks := by
  cases hfailure : source.characters.failure with
  | none =>
    rw [tokens, items_tokenize hfailure, ← finished_nil] at ht
    exact ((extends_finish _ _).added t ht).resolve_right (not_not.2 htype)
  | some failure =>
    rw [tokens, items_tokenize_of_failure hfailure] at ht
    rw [finished, List.flatMap_append]
    exact List.mem_append_left _ ht

/-- The selectors of a source are traced. -/
theorem traces_of_mem_tokens (source : Source) {t : Token} (ht : t ∈ source.tokens) :
    t.Traces source.characters.items := by
  by_cases htype : t.type = .selector
  · exact State.traces_after _ t (source.mem_finished_of_selector ht htype)
  · exact Token.traces_of_type htype _

/-- A selector of a source reads as the source does from its start to its end outside comments, and
every offset into its text is located at the very character that stands there in the source; the end
of the text is located at the end of the selector. -/
theorem locate_selector (source : Source) {place : Placement} {text : String}
    {anchors : List Anchor} (ht : .leaf place (.selector text anchors) ∈ source.tokens) :
    let t := Token.leaf place (.selector text anchors)
    let cells := Cell.between place.start place.stop (uncommented source.characters.items)
    Cell.text cells = text.toList ∧
      (∀ before c after, text.toList = before ++ c :: after →
        cells[before.length]? = some ⟨c, t.locate text (Text.byteSize before)⟩) ∧
      t.locate text (Text.byteSize text.toList) = t.stop := by
  intro t cells
  obtain ⟨htext, -, hlocate⟩ := source.traces_of_mem_tokens ht
  have hcells : Cell.text cells = text.toList := by rw [htext, String.toList_ofList]
  have hoffset (before after : List Cell) (hsplit : cells = before ++ after) :
      t.locate text (Text.byteSize (Cell.text before)) =
        (after.head?.map Cell.position).getD place.stop := by
    show Token.locateIn place.start anchors text _ = _
    rw [← hlocate before after hsplit, ← htext]
  refine ⟨hcells, ?_, ?_⟩
  · intro before c after hsplit
    obtain ⟨front, rest, hfront, rfl, hrest⟩ := List.map_eq_append_iff.1 (hcells.trans hsplit)
    obtain ⟨cell, back, rfl, rfl, -⟩ := List.map_eq_cons_iff.1 hrest
    rw [hoffset front (cell :: back) hfront, hfront]
    simp
  · rw [← hcells, hoffset cells [] (by simp)]
    rfl

/-- A selector with a comment over two lines, behind a character of two bytes. -/
theorem locate_selector_comment :
    let source := ofString "é/*\n*/ b{}"
    let t := Token.leaf ⟨1, none, none, ⟨1, 1⟩, ⟨2, 5⟩⟩ (.selector "é b" [⟨2, ⟨2, 3⟩⟩])
    t ∈ source.tokens ∧
      (Cell.between t.start t.stop (uncommented source.characters.items))[2]? =
        some ⟨'b', t.locate "é b" 3⟩ ∧
      t.locate "é b" 3 = ⟨2, 4⟩ ∧ t.locate "é b" 4 = ⟨2, 5⟩ := by
  intro source t
  have hcharacters : source.characters = { items := "é/*\n*/ b{}".toList } := by
    rw [characters_ofString]
    decide +kernel
  have ht : t ∈ source.tokens := by
    rw [tokens, items_tokenize (by rw [hcharacters]), hcharacters]
    decide +kernel
  obtain ⟨-, hlocate, hend⟩ := source.locate_selector ht
  have hb := hlocate ['é', ' '] 'b' [] (by simp)
  rw [show Text.byteSize ['é', ' '] = 3 by decide +kernel] at hb
  rw [show Text.byteSize "é b".toList = 4 by decide +kernel] at hend
  exact ⟨ht, hb, by decide +kernel, hend⟩

end Source

end Stylesheet
