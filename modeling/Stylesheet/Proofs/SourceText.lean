import Stylesheet.Proofs.Excerpt
import Stylesheet.Proofs.Scan.Finished
import Stylesheet.Proofs.Scoping

set_option autoImplicit false

/-! # Tokens say what the source says

The payload of a token is computed from pending text and its span from recorded positions. The two
agree: between its start and its end the source reads as the token says, with the comments in
between left out (`Token.Says`). A token says so when it is finished (`Claim.tells`), and goes on to
say so: later characters can only hide text after it (`Token.Says.concat`). -/

namespace Stylesheet

namespace Scan

/-! ## Texts between positions -/

/-- The text stands in the source between the two positions. -/
def Spells (cs text : List Char) (start stop : Position) : Prop :=
  ∃ before after, cs = before ++ (text ++ after) ∧ Position.start.advanceAll before = start ∧
    Position.start.advanceAll (before ++ text) = stop

/-- What the source says between two positions outside comments. -/
def bareText (cs : List Char) (start stop : Position) : List Char :=
  Cell.text (Cell.between start stop (uncommented cs))

/-- The content stands between the delimiters of a comment, which begins at `start` and ends at
`stop` with the first end of a comment after its opening. -/
def CommentText (cs content : List Char) (start stop : Position) : Prop :=
  ∃ before after, cs = before ++ after ∧ Position.start.advanceAll before = stop ∧
    OpenedIn before start (content ++ ['*', '/']) ∧ ¬ ['*', '/'] <:+: content ++ ['*']

/-- The content is what follows the opening of a comment that begins at `start` and is still open
at `stop`, the end of the source. -/
def UnendedText (cs content : List Char) (start stop : Position) : Prop :=
  Position.start.advanceAll cs = stop ∧ OpenedIn cs start content ∧ ¬ ['*', '/'] <:+: content

end Scan

open Scan

/-- A token that stands between the two positions says what the source says there. One that is
`forced` may have been closed by the end of the source. -/
def Leaf.Says (cs : List Char) (forced : Prop) (start stop : Position) : Leaf → Prop
  | .whitespace text => Spells cs text.toList start stop
  | .selector text _ => bareText cs start stop = text.toList ∧ text ≠ "" ∧
      Text.trim text.toList = text.toList
  | .property name value =>
    DeclarationText (Text.withoutTerminator (bareText cs start stop)) name value
  | .atRule name value _ => AtRuleText (Text.withoutTerminator (bareText cs start stop)) name value
  | .comment text => ∃ content, text = Payload.cleanComment content ∧
      (CommentText cs content start stop ∨ forced ∧ UnendedText cs content start stop)

/-- The token says what the source says between its start and its end. Those numbered in `forced`
may have been closed by the end of the source. -/
def Token.Says (cs : List Char) (forced : TokenId → Prop) : Token → Prop
  | .leaf place content => content.Says cs (forced place.id) place.start place.stop
  | .block place _ => ⟨'{', place.start⟩ ∈ Cell.ofText .start cs ∧
      ((∃ cell ∈ Cell.ofText .start cs, cell.char = '}' ∧ cell.stop = place.stop) ∨
        forced place.id)

namespace Scan

theorem Spells.append {cs text : List Char} {start stop : Position}
    (h : Spells cs text start stop) (ds : List Char) : Spells (cs ++ ds) text start stop := by
  obtain ⟨before, after, rfl, hstart, hstop⟩ := h
  exact ⟨before, after ++ ds, by simp, hstart, hstop⟩

theorem CommentText.append {cs content : List Char} {start stop : Position}
    (h : CommentText cs content start stop) (ds : List Char) :
    CommentText (cs ++ ds) content start stop := by
  obtain ⟨before, after, rfl, hrest⟩ := h
  exact ⟨before, after ++ ds, by simp, hrest⟩

/-- Cells at the end of a text stand where their text does. -/
theorem spells_of_suffix {cs : List Char} {front cells : List Cell} {start : Position}
    (h : Cell.ofText .start cs = front ++ cells)
    (hstart : cells.head?.map Cell.position = some start) (ds : List Char) :
    Spells (cs ++ ds) (Cell.text cells) start (Position.start.advanceAll cs) := by
  have hcs : cs = Cell.text front ++ Cell.text cells := by
    rw [← Cell.text_ofText .start cs, h, Cell.text, List.map_append]
  refine ⟨Cell.text front, ds, by rw [← List.append_assoc, ← hcs], ?_, by rw [← hcs]⟩
  obtain ⟨first, hfirst, rfl⟩ := Option.map_eq_some_iff.1 hstart
  rw [hcs, Cell.ofText_append] at h
  have hlength : (Cell.ofText .start (Cell.text front)).length = front.length := by
    simpa only [Cell.text, List.length_map] using
      congrArg List.length (Cell.text_ofText .start (Cell.text front))
  obtain ⟨-, hcells⟩ := List.append_inj h hlength
  cases hcells' : Cell.text cells with
  | nil => simp [List.map_eq_nil_iff.1 hcells'] at hfirst
  | cons c rest =>
    rw [hcells', Cell.ofText] at hcells
    rw [← hcells] at hfirst
    simp only [List.head?_cons, Option.some.injEq] at hfirst
    rw [← hfirst]

/-- Text before a position is hidden only by comments that begin before it. -/
theorem between_concat {cs : List Char} {c : Char} {start stop : Position}
    (hstop : stop ≤ Position.start.advanceAll cs)
    (hcomment : ∀ k, (State.after {} (cs ++ [c])).comment = some k →
      (State.after {} cs).comment = some k ∨ stop ≤ k.start) :
    Cell.between start stop (uncommented (cs ++ [c])) =
      Cell.between start stop (uncommented cs) := by
  have hlast : ¬ Position.start.advanceAll cs < stop := not_lt.2 hstop
  rw [Cell.between, Cell.between, uncommented, uncommented, List.filter_filter,
    List.filter_filter, Cell.ofText_append, Cell.ofText_singleton, List.filter_append]
  rw [List.filter_cons_of_neg (by simp [hlast]), List.filter_nil, List.append_nil]
  refine List.filter_congr ?_
  intro cell hcell
  have hbefore : cell.position < Position.start.advanceAll cs :=
    lt_of_lt_of_le cell.position_lt_stop (Cell.stop_le_of_mem_ofText hcell)
  have hsame (hp : cell.position < stop) :
      Commented (cs ++ [c]) cell.position ↔ Commented cs cell.position := by
    rw [commented_concat_iff, or_iff_left_iff_imp]
    rintro ⟨k, hk, hle, -⟩
    have hopen : (State.after {} cs).comment = some k := by
      rcases hk with hk | hk
      · exact hk
      · exact (hcomment k hk).resolve_right (not_le.2 (lt_of_le_of_lt hle hp))
    exact ⟨cs, [], k, by simp, hopen, hle, by simpa using hbefore⟩
  by_cases hp : cell.position < stop
  · simp [hsame hp]
  · simp [hp]

end Scan

namespace Token

variable {cs : List Char} {forced : TokenId → Prop} {t : Token}

/-- Links do not matter to what a token says. -/
theorem Says.withPlace (h : t.Says cs forced) {p : Placement} (hid : p.id = t.id)
    (hstart : p.start = t.start) (hstop : p.stop = t.stop) : (t.withPlace p).Says cs forced := by
  obtain ⟨id, parent, previous, start, stop⟩ := p
  obtain rfl : id = t.id := hid
  obtain rfl : start = t.start := hstart
  obtain rfl : stop = t.stop := hstop
  cases t with
  | leaf place content => exact h
  | block place children => exact h

theorem Says.mono {forced' : TokenId → Prop} (hforced : ∀ id, forced id → forced' id)
    (h : t.Says cs forced) : t.Says cs forced' := by
  cases t with
  | leaf place content =>
    cases content with
    | comment text =>
      obtain ⟨content, htext, hcontent⟩ := h
      exact ⟨content, htext, hcontent.imp_right fun h => ⟨hforced _ h.1, h.2⟩⟩
    | _ => exact h
  | block place children => exact ⟨h.1, h.2.imp_right (hforced _)⟩

/-- What a token has said it goes on to say, unless a comment is opened before its end. -/
theorem Says.concat {c : Char} (h : t.Says cs fun _ => False)
    (hstop : t.type.isText = true → t.stop ≤ Position.start.advanceAll cs)
    (hcomment : t.type.isText = true → ∀ k, (State.after {} (cs ++ [c])).comment = some k →
      (State.after {} cs).comment = some k ∨ t.stop ≤ k.start) :
    t.Says (cs ++ [c]) fun _ => False := by
  have hbare (htext : t.type.isText = true) :
      bareText (cs ++ [c]) t.start t.stop = bareText cs t.start t.stop :=
    congrArg Cell.text (between_concat (hstop htext) (hcomment htext))
  cases t with
  | leaf place content =>
    cases content with
    | whitespace text => exact h.append [c]
    | selector text anchors => exact ⟨(hbare rfl).trans h.1, h.2⟩
    | property name value | atRule name value isBlock =>
      rw [Says, Leaf.Says, show bareText (cs ++ [c]) place.start place.stop = _ from hbare rfl]
      exact h
    | comment text =>
      obtain ⟨content, htext, hcontent⟩ := h
      exact ⟨content, htext, Or.inl ((hcontent.resolve_right fun h => h.1).append [c])⟩
  | block place children =>
    rw [Says, Cell.ofText_append]
    refine ⟨List.mem_append_left _ h.1, Or.inl ?_⟩
    obtain ⟨cell, hcell, hchar⟩ := h.2.resolve_right fun h => h
    exact ⟨cell, List.mem_append_left _ hcell, hchar⟩

end Token

namespace Scan

/-! ## Everything finished so far -/

/-- Everything finished so far says what the source says, and every open block begins with a
brace. -/
structure Told (cs : List Char) (forced : TokenId → Prop) (items : List Item)
    (blocks : List OpenBlock) : Prop where
  tokens : ∀ t ∈ finished items blocks, t.Says cs forced
  braces : ∀ b ∈ blocks, ⟨'{', b.start⟩ ∈ Cell.ofText .start cs

section Told

variable {cs : List Char} {forced : TokenId → Prop} {items items' : List Item}
  {blocks : List OpenBlock} {s : State}

theorem Told.congr (h : Told cs forced items blocks) (htokens : tokensOf items' = tokensOf items) :
    Told cs forced items' blocks :=
  ⟨by rw [finished_congr htokens]; exact h.tokens, h.braces⟩

/-- A finished token joins the innermost sequence. -/
theorem Told.accept (h : Told cs forced items s.blocks) {t : Token}
    (ht : ∀ u ∈ t.preorder, u.Says cs forced) :
    Told cs forced (items ++ (s.accept t).1) (s.accept t).2.blocks := by
  obtain ⟨p, hid, hstart, hstop, hlinked⟩ := s.exists_linked t
  refine ⟨?_, ?_⟩
  · intro u hu
    rcases (mem_finished_accept items s t).1 hu with hu | hu
    · exact h.tokens u hu
    · rw [Token.preorder_eq_cons, State.children_linked] at hu
      rcases List.mem_cons.1 hu with rfl | hu
      · rw [hlinked]
        exact (ht t t.mem_preorder_self).withPlace hid hstart hstop
      · exact ht u (by rw [Token.preorder_eq_cons]; exact List.mem_cons_of_mem _ hu)
  · have hbraces := h.braces
    cases hblocks : s.blocks with
    | nil => simp [State.accept, hblocks, State.acceptTopLevel]
    | cons b blocks =>
      rw [hblocks] at hbraces
      simpa [State.accept, hblocks, OpenBlock.add] using hbraces

/-- The innermost block, once closed, is a finished token like any other. -/
theorem Told.pop {b : OpenBlock} (h : Told cs forced items (b :: blocks)) (stop : Position)
    (hstop : (∃ cell ∈ Cell.ofText .start cs, cell.char = '}' ∧ cell.stop = b.start.widen stop) ∨
      forced b.id) :
    Told cs forced items blocks ∧ ∀ u ∈ (b.close stop).preorder, u.Says cs forced := by
  refine ⟨⟨?_, fun b' hb' => h.braces b' (List.mem_cons_of_mem _ hb')⟩, ?_⟩
  · intro u hu
    exact h.tokens u (mem_finished_cons.2 (Or.inl hu))
  · intro u hu
    rw [Token.preorder_eq_cons] at hu
    rcases List.mem_cons.1 hu with rfl | hu
    · exact ⟨h.braces b (List.mem_cons_self ..), hstop⟩
    · exact h.tokens u (mem_finished_cons.2 (Or.inr hu))

/-- What has been told is told still after one more character. -/
theorem Told.concat (h : Told cs (fun _ => False) (State.itemsOf {} cs) (State.after {} cs).blocks)
    (c : Char) :
    Told (cs ++ [c]) (fun _ => False) (State.itemsOf {} cs) (State.after {} cs).blocks := by
  refine ⟨?_, ?_⟩
  · intro t ht
    exact (h.tokens t ht).concat (stop_le_of_mem_finished ht)
      (fun htext k hk => comment_of_mem_finished ht htext hk)
  · intro b hb
    rw [Cell.ofText_append]
    exact List.mem_append_left _ (h.braces b hb)

end Told

end Scan

/-! ## What open tokens come to say -/

section Begins

variable {t : OpenToken} {cells : List Cell}

theorem OpenToken.Begins.atRuleText (h : t.Begins cells) (hkind : t.kind = .atRule) :
    AtRuleText (Text.trim (Cell.text cells)) (Payload.splitAtRule (Cell.text cells)).1
        (Payload.splitAtRule (Cell.text cells)).2 ∧
      AtRuleText (Text.trimStart (Cell.text cells)) (Payload.splitAtRule (Cell.text cells)).1
        (Payload.splitAtRule (Cell.text cells)).2 := by
  simp only [Begins, hkind] at h
  obtain ⟨head, rest, -, rfl, hsign, -⟩ := h
  have hat : Text.trimStart (Cell.text head) = ['@'] := by
    simpa [Payload.isAtSign] using hsign
  have hstart : Text.trimStart (Cell.text (head ++ rest)) = '@' :: Cell.text rest := by
    rw [Cell.text, List.map_append, Text.trimStart, List.dropWhile_append, ← Text.trimStart, hat]
    simp
  have htrim := atRuleText_splitAtRule hstart
  obtain ⟨-, trail, -, htrail, -, hsplit⟩ := Text.exists_trim (Cell.text (head ++ rest))
  refine ⟨htrim, ?_⟩
  rw [hsplit]
  exact htrim.append_of_allBlank htrail

theorem OpenToken.Begins.declarationText {name : String} (h : t.Begins cells)
    (hkind : t.kind = .property name) :
    DeclarationText (Text.trim (Cell.text cells)) name
        (Payload.declarationValue? (Cell.text cells)) ∧
      DeclarationText (Text.trimStart (Cell.text cells)) name
        (Payload.declarationValue? (Cell.text cells)) := by
  simp only [Begins, hkind] at h
  obtain ⟨head, rest, -, rfl, hname, -⟩ := h
  rw [Cell.text, List.map_append]
  have hstart := declarationText_declarationValue? hname (Cell.text rest)
  exact ⟨hstart.trimEnd, hstart⟩

end Begins

namespace Scan

section Bare

variable {cs : List Char} {front cells back : List Cell} {start stop : Position}

/-- Between the ends of their span, pending cells read as their trimmed text. -/
theorem bareText_span (hV : uncommented cs = front ++ cells ++ back)
    (hspan : Cell.span? cells = some (start, stop)) :
    bareText cs start stop = Text.trim (Cell.text cells) := by
  rw [bareText, hV]
  exact Cell.text_between_span (hV ▸ ordered_uncommented cs) hspan

/-- From the start of their span to the end of the source, pending cells read as their text. -/
theorem bareText_rest (hcells : cells <:+ uncommented cs)
    (hspan : Cell.span? cells = some (start, stop)) :
    bareText cs start (Position.start.advanceAll cs) = Text.trimStart (Cell.text cells) := by
  obtain ⟨front, hfront⟩ := hcells
  have hV : uncommented cs = front ++ cells ++ [] := by rw [hfront, List.append_nil]
  rw [bareText, hV]
  refine Cell.text_between_start (hV ▸ ordered_uncommented cs) hspan ?_ (by simp)
  intro cell hcell
  have hmem : cell ∈ uncommented cs := by
    rw [← hfront]
    exact List.mem_append_right _ hcell
  exact lt_of_lt_of_le cell.position_lt_stop
    (Cell.stop_le_of_mem_ofText (List.mem_filter.1 hmem).1)

end Bare

/-! ## One claim -/

section Step

variable {s s' : State} {cs : List Char} {c : Char} {rule : Rule} {outcome : Outcome}
  {k : OpenComment} {cells : List Cell}

/-- An open comment in the pending cells: what is before it, its opening, and its content so far. -/
theorem State.exists_comment (hcoherent : s.Coherent cells) (hpending : s.Pending cs cells)
    (hunended : ∀ k, s.comment = some k → k.Unended cells) (hk : s.comment = some k) :
    ∃ before slash star inside, cells = before ++ slash :: star :: inside ∧ slash.char = '/' ∧
      star.char = '*' ∧ Text.byteSize (Cell.text before) = k.offset ∧
      OpenedIn cs k.start (Cell.text inside) ∧ ¬ ['*', '/'] <:+: Cell.text inside := by
  obtain ⟨before, inside, slash, star, hcells, hslash, hstar, hsize, -⟩ :=
    hcoherent.comment k hk
  obtain ⟨content, ⟨before₁, slash₁, star₁, inside₁, hcells₁, hsize₁, -, rfl, -⟩, hopened⟩ :=
    hpending.around k hk
  obtain ⟨before₂, inside₂, slash₂, star₂, hcells₂, hsize₂, hnone⟩ := hunended k hk
  obtain ⟨-, hrest₁⟩ := Text.append_inj_of_byteSize (hcells₁.symm.trans hcells)
    (hsize₁.trans hsize.symm)
  obtain ⟨-, hrest₂⟩ := Text.append_inj_of_byteSize (hcells₂.symm.trans hcells)
    (hsize₂.trans hsize.symm)
  simp only [List.cons.injEq] at hrest₁ hrest₂
  rw [hrest₁.2.2] at hopened
  rw [hrest₂.2.2] at hnone
  exact ⟨before, slash, star, inside, hcells, hslash, hstar, hsize, hopened, hnone⟩

/-- What is known of a state that offers the character `c` after the text `cs`. -/
structure State.Telling (s : State) (cs : List Char) (c : Char) : Prop extends
    s.Offered cs c where
  pending : s.Pending cs s.window.body
  unended : ∀ k, s.comment = some k → k.Unended s.window.body
  outside : s.comment = none → (State.after {} cs).comment = none

namespace State.Telling

variable (hs : s.Telling cs c) {start stop : Position}

include hs

/-- Outside comments every character but a star joins the text. -/
theorem uncommented_concat (hk : s.comment = none) (hc : c ≠ '*') :
    uncommented (cs ++ [c]) = uncommented cs ++ [⟨c, s.position⟩] := by
  rw [hs.position]
  exact uncommented_of_none (hs.outside hk) (State.comment_eq_none_of_ne (hs.outside hk) hc)

theorem bareText_bodyStop (hk : s.comment = none) (hc : c ≠ '*')
    (hspan : Cell.span? s.window.body = some (start, stop)) :
    bareText (cs ++ [c]) start s.bodyStop = Text.trim s.bodyText := by
  obtain ⟨front, hfront⟩ := (hs.pending.plain hk).shown
  have hV : uncommented (cs ++ [c]) = front ++ s.window.body ++ [⟨c, s.position⟩] := by
    rw [hs.uncommented_concat hk hc, hfront]
  rw [(hs.bodyStop_of_span hspan).2.1]
  exact bareText_span hV hspan

/-- A semicolon that ends a token is its terminator. -/
theorem bareText_next (hk : s.comment = none) (hc : c = ';')
    (hspan : Cell.span? s.window.body = some (start, stop))
    (hquiet : Text.isQuiet s.bodyText = true) :
    Text.withoutTerminator (bareText (cs ++ [c]) start s.next) = Text.trimStart s.bodyText := by
  subst hc
  obtain ⟨front, hfront⟩ := (hs.pending.plain hk).shown
  have hsuffix : s.window.cells <:+ uncommented (cs ++ [';']) := by
    refine ⟨front, ?_⟩
    rw [hs.uncommented_concat hk (by decide), hs.cells, ← hfront, List.append_assoc]
  obtain ⟨stop', hspan'⟩ : ∃ stop', Cell.span? s.window.cells = some (start, stop') := by
    rw [hs.cells]
    exact Cell.span?_append hspan
  have htext : Text.trimStart s.window.text = Text.trimStart s.bodyText ++ [';'] := by
    have hblank : (Text.trimStart s.bodyText).isEmpty = false := by
      rw [List.isEmpty_eq_false_iff, ne_eq, Text.trimStart_eq_nil_iff, Bool.not_eq_true]
      exact Cell.allBlank_eq_false hspan
    have hsplit : s.window.text = s.bodyText ++ [';'] := by
      simp [Window.text, hs.cells, State.bodyText]
    rw [hsplit, Text.trimStart, List.dropWhile_append, ← Text.trimStart, hblank]
    rfl
  rw [hs.next_eq, bareText_rest hsuffix hspan']
  exact (congrArg _ htext).trans
    (Text.withoutTerminator_concat (by rwa [Text.isQuiet_trimStart]))

/-- A comment that ends has its content between its delimiters. -/
theorem commentText_of_ends (hk : s.comment = some k) (hsize : k.offset + 4 ≤ s.window.bytes)
    (hends : s.window.endsIn ['*', '/'] = true) :
    CommentText (cs ++ [c]) (s.commentText k.offset) k.start s.next := by
  obtain ⟨before, slash, star, inside, hbody, hslash, hstar, hoffset, hopened, hnone⟩ :=
    State.exists_comment hs.coherent hs.pending hs.unended hk
  have hcells : s.window.cells = before ++ slash :: star :: (inside ++ [⟨c, s.position⟩]) := by
    rw [hs.cells, hbody]
    simp
  have hended : ['*', '/'] <:+ Cell.text (inside ++ [⟨c, s.position⟩]) := by
    by_contra hopen
    rw [← Window.isOpen_iff hs.window.bytes hcells hslash hstar, hoffset] at hopen
    rcases hopen with hopen | hopen
    · omega
    · simp [hends] at hopen
  obtain ⟨raw, hraw⟩ := hended
  rw [Cell.text, List.map_append, List.append_cons raw '*' ['/']] at hraw
  obtain ⟨hinside, hc⟩ := List.append_inj' hraw rfl
  obtain rfl : '/' = c := List.singleton_inj.1 hc
  have hcontent : s.commentText k.offset = raw := by
    have htext : s.window.text = Cell.text before ++ ['/', '*'] ++ raw ++ ['*', '/'] := by
      simp [Window.text, hcells, hslash, hstar, ← hinside]
    have hslice := Text.slice?_of_comment hs.window.bytes htext
    rw [hoffset] at hslice
    exact congrArg (·.getD []) hslice
  rw [hcontent]
  refine ⟨cs ++ ['/'], [], by simp, hs.next_eq.symm, ?_, hinside ▸ hnone⟩
  have hconcat := hopened.concat '/'
  rw [← show raw ++ ['*'] = Cell.text inside from hinside] at hconcat
  simpa using hconcat

end State.Telling

/-- A token without children says what the source says when it is finished. -/
theorem Claim.tells (h : Claim s c rule outcome s') (hs : s.Telling cs c) {id : TokenId}
    {content : Leaf} {start : Position}
    (ht : outcome.token? = some (.ofLeaf id content start (rule.stop s c))) :
    content.Says (cs ++ [c]) False start (rule.stop s c) := by
  have hshows (hk : s.comment = none) := hs.pending.plain hk
  cases h with
  | closeComment k hk hsize hends =>
    simp only [Outcome.token?, Option.some.injEq, OpenComment.close, Token.ofLeaf,
      Token.leaf.injEq, Placement.detached, Placement.mk.injEq] at ht
    obtain ⟨⟨-, -, -, rfl, -⟩, rfl⟩ := ht
    exact ⟨_, rfl, Or.inl (hs.commentText_of_ends hk hsize hends)⟩
  | closeAtRule hk o hcurrent hkind hc hstring hparens =>
    simp only [Outcome.token?, Option.some.injEq, OpenToken.close, Token.ofLeaf,
      Token.leaf.injEq, Placement.detached, Placement.mk.injEq] at ht
    obtain ⟨⟨-, -, -, rfl, -⟩, rfl⟩ := ht
    have hbegins := hs.coherent.current hk o hcurrent
    obtain ⟨last, hspan⟩ := hbegins.span (by simp [hkind])
    rcases hc with rfl | rfl
    · have hquiet : Text.isQuiet s.bodyText = true := by simp [Text.isQuiet, hstring, hparens]
      rw [Leaf.Says, show Rule.atRule.stop s ';' = s.next from rfl,
        hs.bareText_next hk rfl hspan hquiet]
      exact (hbegins.atRuleText hkind).2
    · have hunterminated : Text.Unterminated s.bodyText :=
        (hshows hk).unterminated o hcurrent (by simp [hkind])
      rw [Leaf.Says, show Rule.atRule.stop s '{' = s.bodyStop from rfl,
        hs.bareText_bodyStop hk (by decide) hspan, hunterminated.trim.withoutTerminator_eq]
      exact (hbegins.atRuleText hkind).1
  | selector hk hc _ _ _ start' stop hspan =>
    simp only [Outcome.token?, Option.some.injEq, Token.ofLeaf, Token.leaf.injEq,
      Placement.detached, Placement.mk.injEq] at ht
    obtain ⟨⟨-, -, -, rfl, -⟩, rfl⟩ := ht
    have hbare := hs.bareText_bodyStop hk (by simp [hc]) hspan
    refine ⟨by rw [String.toList_ofList]; exact hbare, ?_, ?_⟩
    · have hblank : Text.allBlank s.bodyText = false := Cell.allBlank_eq_false hspan
      simp [Text.trim_eq_nil_iff, hblank]
    · rw [String.toList_ofList, Text.trim_trim]
  | closeProperty hk hblocks o hcurrent name hkind hc hstring hparens =>
    simp only [Outcome.token?, Option.some.injEq, OpenToken.close, Token.ofLeaf,
      Token.leaf.injEq, Placement.detached, Placement.mk.injEq] at ht
    obtain ⟨⟨-, -, -, rfl, -⟩, rfl⟩ := ht
    have hbegins := hs.coherent.current hk o hcurrent
    obtain ⟨last, hspan⟩ := hbegins.span (by simp [hkind])
    rcases hc with rfl | rfl
    · have hquiet : Text.isQuiet s.bodyText = true := by
        simp [Text.isQuiet, hstring, hparens rfl]
      rw [Leaf.Says, show Rule.property.stop s ';' = s.next from rfl,
        hs.bareText_next hk rfl hspan hquiet]
      exact (hbegins.declarationText hkind).2
    · have hunterminated : Text.Unterminated s.bodyText :=
        (hshows hk).unterminated o hcurrent (by simp [hkind])
      rw [Leaf.Says, show Rule.property.stop s '}' = s.bodyStop from rfl,
        hs.bareText_bodyStop hk (by decide) hspan, hunterminated.trim.withoutTerminator_eq]
      exact (hbegins.declarationText hkind).1
  | closeWhitespace hk o hcurrent hkind hc =>
    simp only [Outcome.token?, Option.some.injEq, OpenToken.close, Token.ofLeaf,
      Token.leaf.injEq, Placement.detached, Placement.mk.injEq] at ht
    obtain ⟨⟨-, -, -, rfl, -⟩, rfl⟩ := ht
    obtain ⟨hblank, hstart⟩ := (OpenToken.begins_whitespace_iff hkind).1
      (hs.coherent.current hk o hcurrent)
    rcases (hshows hk).joined with ⟨cell, hcell, hvisible⟩ | ⟨front, hfront⟩
    · simp [hblank cell hcell] at hvisible
    · have hspells := spells_of_suffix hfront.symm hstart [c]
      rw [← hs.position] at hspells
      rw [Leaf.Says, String.toList_ofList]
      exact hspells
  | closeBlock | closeBlockAfter =>
    simp [Outcome.token?, OpenBlock.close, Token.ofLeaf, Token.ofChildren] at ht
  | _ => simp [Outcome.token?] at ht

/-- A token that hands its character on was finished outside comments. -/
theorem Claim.comment_eq_none (h : Claim s c rule outcome s') {t : Token}
    (ht : outcome.token? = some t) (hcontinues : State.continues t.type rule c = true) :
    s.comment = none := by
  cases h with
  | closeComment =>
    simp only [Outcome.token?, Option.some.injEq] at ht
    simp [← ht, OpenComment.close, Leaf.type] at hcontinues
  | closeAtRule hk | selector hk | closeProperty hk | closeBlock hk | closeBlockAfter hk
  | closeWhitespace hk => exact hk
  | _ => simp [Outcome.token?] at ht

/-- A claim that finishes no token opens at most a block. -/
theorem Claim.told {items : List Item} (h : Claim s c rule outcome s') (hs : s.Offered cs c)
    (htold : Told (cs ++ [c]) (fun _ => False) items s.blocks) (ht : outcome.token? = none) :
    Told (cs ++ [c]) (fun _ => False) (items ++ outcome.found) s'.blocks := by
  have htold' := htold.congr (show tokensOf (items ++ outcome.found) = tokensOf items by simp)
  rcases h.blocks_cases ht with hblocks | ⟨rfl, id, header, hblocks⟩
  · rw [hblocks]
    exact htold'
  · rw [hblocks]
    refine ⟨htold'.tokens, ?_⟩
    intro b hb
    rcases List.mem_cons.1 hb with rfl | hb
    · simp [hs.position]
    · exact htold'.braces b hb

/-- A finished token says what the source says. -/
theorem Claim.told_of_token {items : List Item} (h : Claim s c rule outcome s')
    (hs : s.Telling cs c) (htold : Told (cs ++ [c]) (fun _ => False) items s.blocks) {t : Token}
    (ht : outcome.token? = some t) :
    Told (cs ++ [c]) (fun _ => False) (items ++ outcome.found ++ (s'.complete t).1)
      (s'.complete t).2.blocks := by
  have htokens : tokensOf (items ++ outcome.found) = tokensOf items := by simp
  have haccept (hblocks : Told (cs ++ [c]) (fun _ => False) items s'.blocks)
      (htext : ∀ u ∈ t.preorder, u.Says (cs ++ [c]) fun _ => False) :=
    Told.accept (s := s'.recordCompleted t) (hblocks.congr htokens) htext
  rcases (h.finishes hs.toOffered ht).2 with
    ⟨id, content, start, rfl, hleaf⟩ | ⟨b, blocks, hb, hb', -, -, rfl⟩
  · refine haccept (by rw [hleaf.blocks]; exact htold) ?_
    intro u hu
    obtain rfl : u = _ := by simpa [Token.preorder_eq_cons] using hu
    rw [Token.ofLeaf, Placement.detached, Position.widen_of_lt hleaf.start_lt_stop]
    exact h.tells hs ht
  · rw [hb] at htold
    obtain rfl := h.eq_brace_of_block ht rfl
    have hbrace := htold.braces b (List.mem_cons_self ..)
    have hlt : b.start < s.next := by
      rw [hs.next_eq]
      exact lt_of_lt_of_le (b.start.lt_advance '{') (Cell.stop_le_of_mem_ofText hbrace)
    have hclosing : (⟨'}', s.position⟩ : Cell) ∈ Cell.ofText .start (cs ++ ['}']) := by
      simp [hs.position]
    obtain ⟨houter, hclosed⟩ := htold.pop s.next
      (Or.inl ⟨_, hclosing, rfl, by rw [Position.widen_of_lt hlt, hs.next]; rfl⟩)
    exact haccept (by rw [hb']; exact houter) hclosed

end Step

/-! ## A run -/

namespace State

theorem OfferedAgain.telling {s : State} {cs : List Char} {c : Char} (h : s.OfferedAgain cs c)
    (hk : (State.after {} cs).comment = none) : s.Telling cs c := by
  refine ⟨h.toOffered, ?_, by simp [h.comment_eq_none], fun _ => hk⟩
  rw [h.body_eq_nil]
  exact pending_nil h.current_eq_none h.comment_eq_none cs

theorem telling_arrive (cs : List Char) (c : Char) :
    ((State.after {} cs).arrive c).Telling cs c := by
  have hpending := pending_after cs
  refine ⟨(settled_after cs).arrive c, ⟨fun hk => ?_, hpending.around⟩, unended_after cs, id⟩
  obtain ⟨hshown, hjoined, hunterminated⟩ := hpending.plain hk
  exact ⟨hshown, hjoined, hunterminated⟩

theorem preserves_told (cs : List Char) (c : Char) :
    Preserves c
      (fun items s => s.Telling cs c ∧ Told (cs ++ [c]) (fun _ => False) items s.blocks)
      (fun items s => s.OfferedAgain cs c ∧ (State.after {} cs).comment = none ∧
        Told (cs ++ [c]) (fun _ => False) items s.blocks)
      (fun items s => Told (cs ++ [c]) (fun _ => False) items s.blocks) where
  last h := h.1.last
  first_of_again h := ⟨h.1.telling h.2.1, h.2.2⟩
  done_of_again h := h.2.2
  done_of_skip h _ := h.2
  done_of_claim h hclaim ht := hclaim.told h.1.toOffered h.2 ht
  done_of_token h hclaim ht _ := hclaim.told_of_token h.1 h.2 ht
  again_of_token h hclaim ht hcontinues :=
    ⟨hclaim.offeredAgain h.1.toOffered ht, h.1.outside (hclaim.comment_eq_none ht hcontinues),
      hclaim.told_of_token h.1 h.2 ht⟩

/-- Everything finished by a run says what the source says. -/
theorem told_after (cs : List Char) :
    Told cs (fun _ => False) (itemsOf {} cs) (State.after {} cs).blocks := by
  induction cs using List.reverseRecOn with
  | nil => exact ⟨by simp [finished], by simp⟩
  | append_singleton cs c ih =>
    rw [itemsOf_concat, after_concat]
    exact (preserves_told cs c).scan _ ⟨telling_arrive cs c, ih.concat c⟩

theorem preserves_forall_finished {P : Token → Prop} {cs : List Char} {c : Char}
    (hclaim : ∀ {s rule outcome s' t} {p : Placement}, s.Telling cs c →
      Claim s c rule outcome s' → outcome.token? = some t → p.start = t.start →
      p.stop = t.stop → P (t.withPlace p)) :
    Preserves c (fun items s => s.Telling cs c ∧ ∀ t ∈ finished items s.blocks, P t)
      (fun items s => s.OfferedAgain cs c ∧ (State.after {} cs).comment = none ∧
        ∀ t ∈ finished items s.blocks, P t)
      (fun items s => ∀ t ∈ finished items s.blocks, P t) := by
  have htoken {items : List Item} {s s' : State} {rule : Rule} {outcome : Outcome} {t : Token}
      (hs : s.Telling cs c) (hall : ∀ t ∈ finished items s.blocks, P t)
      (h : Claim s c rule outcome s') (ht : outcome.token? = some t) :
      ∀ u ∈ finished (items ++ outcome.found ++ (s'.complete t).1) (s'.complete t).2.blocks,
        P u := by
    obtain ⟨p, -, hstart, hstop, hlinked⟩ := s'.exists_linked t
    intro u hu
    rcases (h.mem_finished_of_token hs.toOffered ht items).1 hu with hu | rfl
    · exact hall u hu
    · rw [hlinked]
      exact hclaim hs h ht hstart hstop
  refine ⟨fun h => h.1.last, fun h => ⟨h.1.telling h.2.1, h.2.2⟩, fun h => h.2.2, fun h _ => h.2,
    ?_, ?_, ?_⟩
  · intro items s rule outcome s' h hc ht
    rw [hc.finished_eq ht]
    exact h.2
  · intro items s rule outcome s' t h hc ht _
    exact htoken h.1 h.2 hc ht
  · intro items s rule outcome s' t h hc ht hcontinues
    exact ⟨hc.offeredAgain h.1.toOffered ht, h.1.outside (hc.comment_eq_none ht hcontinues),
      htoken h.1 h.2 hc ht⟩

/-- What holds of every token when it is finished, and is not spoiled by later characters, holds of
all tokens finished by a run. -/
theorem forall_finished {P : List Char → Token → Prop}
    (hclaim : ∀ {cs c s rule outcome s' t} {p : Placement}, s.Telling cs c →
      Claim s c rule outcome s' → outcome.token? = some t → p.start = t.start →
      p.stop = t.stop → P (cs ++ [c]) (t.withPlace p))
    (hconcat : ∀ {cs t} (c : Char), t ∈ finished (itemsOf {} cs) (State.after {} cs).blocks →
      P cs t → P (cs ++ [c]) t) (cs : List Char) :
    ∀ t ∈ finished (itemsOf {} cs) (State.after {} cs).blocks, P cs t := by
  induction cs using List.reverseRecOn with
  | nil => simp
  | append_singleton cs c ih =>
    rw [itemsOf_concat, after_concat]
    refine (preserves_forall_finished hclaim).scan _ ⟨telling_arrive cs c, ?_⟩
    intro t ht
    exact hconcat c ht (ih t ht)

end State

/-! ## The end of the source -/

/-- The number of a comment or a block that is open. -/
def State.LeavesOpen (s : State) (id : TokenId) : Prop :=
  (∃ k, s.comment = some k ∧ k.id = id) ∨ id ∈ s.blocks.map OpenBlock.id

section End

variable {cs : List Char} {forced : TokenId → Prop} {items : List Item} {s : State}

theorem ids_accept (s : State) (t : Token) :
    (s.accept t).2.blocks.map OpenBlock.id = s.blocks.map OpenBlock.id := by
  unfold State.accept
  cases hblocks : s.blocks with
  | nil => simp [State.acceptTopLevel, hblocks]
  | cons b blocks => simp [OpenBlock.add]

theorem ids_finish (s : State) :
    s.finishComment.2.finishCurrent.2.blocks.map OpenBlock.id = s.blocks.map OpenBlock.id := by
  have hcomment : s.finishComment.2.blocks.map OpenBlock.id = s.blocks.map OpenBlock.id := by
    unfold State.finishComment
    split
    · rfl
    · dsimp only
      split
      · rfl
      · exact ids_accept { s with comment := none } _
  rw [← hcomment]
  unfold State.finishCurrent State.closeCurrent?
  cases s.finishComment.2.current with
  | none => rfl
  | some o => exact ids_accept { s.finishComment.2 with current := none } _

/-- A token without children finished at the end of the source. -/
theorem Told.acceptLeaf (h : Told cs forced items s.blocks) (found : List Item)
    (hfound : tokensOf found = []) {id : TokenId} {content : Leaf} {start stop : Position}
    (hlt : start < stop) (hcontent : content.Says cs (forced id) start stop) :
    Told cs forced (items ++ (found ++ (s.accept (.ofLeaf id content start stop)).1))
      (s.accept (.ofLeaf id content start stop)).2.blocks := by
  have htokens : tokensOf (items ++ found) = tokensOf items := by simp [hfound]
  rw [← List.append_assoc]
  refine (h.congr htokens).accept ?_
  intro u hu
  obtain rfl : u = _ := by simpa [Token.preorder_eq_cons] using hu
  rw [Token.ofLeaf, Placement.detached, Position.widen_of_lt hlt]
  exact hcontent

/-- A comment that the source ends in says what follows its opening. -/
theorem Told.finishComment (h : Told cs forced items s.blocks) (hs : s.Settled cs)
    (hpending : s.Pending cs s.window.cells)
    (hunended : ∀ k, s.comment = some k → k.Unended s.window.cells)
    (hforced : ∀ k, s.comment = some k → forced k.id) :
    Told cs forced (items ++ s.finishComment.1) s.finishComment.2.blocks := by
  unfold State.finishComment
  split
  · simpa using h
  · next k hk =>
    dsimp only
    split
    · exact h.congr (by simp [State.unclosed])
    · obtain ⟨before, slash, star, inside, hcells, hslash, hstar, hoffset, hopened, hnone⟩ :=
        State.exists_comment hs.coherent hpending hunended hk
      have hraw : (Text.slice? (k.offset + 2) s.window.bytes s.window.text).getD [] =
          Cell.text inside := by
        have htext : s.window.text = Cell.text before ++ ['/', '*'] ++ Cell.text inside ++ [] := by
          simp [Window.text, hcells, hslash, hstar]
        have hslice := Text.slice?_of_comment hs.window.bytes htext
        rw [hoffset] at hslice
        exact congrArg (·.getD []) hslice
      refine Told.acceptLeaf (s := { s with comment := none }) h [_] rfl
        (hs.comment_start_lt hk) ?_
      exact ⟨_, by rw [hraw], Or.inr ⟨hforced k hk, hs.next.symm, hopened, hnone⟩⟩

/-- With the open comment taken away, what is pending is the end of the text outside comments. -/
theorem State.Pending.finishComment (h : s.Pending cs s.window.cells) (hs : s.Settled cs) :
    s.finishComment.2.Shows (uncommented cs) (Cell.ofText .start cs)
      s.finishComment.2.window.cells := by
  unfold State.finishComment
  split
  · next hk => exact h.plain hk
  · next k hk =>
    obtain ⟨content, haround, -⟩ := h.around k hk
    have hinterrupts := hs.coherent.comment k hk
    dsimp only
    split
    · next hembedded =>
      exact haround.truncate hinterrupts hembedded (List.append_nil _).symm rfl
    · next halone =>
      rw [Bool.not_eq_true] at halone
      refine State.shows_nil ?_
      simpa [State.clearWindow] using (hinterrupts.of_standalone halone).1

/-- An open token says what the source says up to its end. -/
theorem Told.finishCurrent (h : Told cs forced items s.blocks) (hs : s.Settled cs)
    (hk : s.comment = none)
    (hshows : s.Shows (uncommented cs) (Cell.ofText .start cs) s.window.cells) :
    Told cs forced (items ++ s.finishCurrent.1) s.finishCurrent.2.blocks := by
  cases hcurrent : s.current with
  | none => simpa [State.finishCurrent, State.closeCurrent?, hcurrent] using h
  | some o =>
    have hbegins := hs.coherent.current hk o hcurrent
    obtain ⟨⟨first, hfirst, hposition⟩, -⟩ := hbegins.exists_cell hs.ordered
    have hlt : o.start < s.next := by
      rw [← hposition]
      exact lt_of_lt_of_le first.position_lt_stop (hs.stop_le_next hfirst)
    -- blanks at the end belong to the token
    have hbare (hkind : o.kind ≠ .whitespace) :
        Text.withoutTerminator (bareText cs o.start s.next) = Text.trimStart s.window.text := by
      have hunterminated : Text.Unterminated s.window.text :=
        hshows.unterminated o hcurrent hkind
      obtain ⟨last, hspan⟩ := hbegins.span hkind
      rw [hs.next, bareText_rest hshows.shown hspan]
      exact hunterminated.trimStart.withoutTerminator_eq
    simp only [State.finishCurrent, State.closeCurrent?, hcurrent, Option.map_some]
    refine Told.acceptLeaf (s := { s with current := none }) h _ (by split <;> rfl) hlt ?_
    cases hkind : o.kind with
    | whitespace =>
      obtain ⟨hblank, hstart⟩ := (OpenToken.begins_whitespace_iff hkind).1 hbegins
      rcases hshows.joined with ⟨cell, hcell, hvisible⟩ | ⟨front, hfront⟩
      · simp [hblank cell hcell] at hvisible
      · have hspells := spells_of_suffix hfront.symm hstart []
        rw [List.append_nil, ← hs.next] at hspells
        rw [State.finalContent, Leaf.Says, String.toList_ofList]
        exact hspells
    | property name =>
      rw [State.finalContent, Leaf.Says, hbare (by simp [hkind])]
      exact (hbegins.declarationText hkind).2
    | atRule =>
      rw [State.finalContent, Leaf.Says, hbare (by simp [hkind])]
      exact (hbegins.atRuleText hkind).2

theorem Told.finishBlock {b : OpenBlock} {around : List OpenBlock}
    (h : Told cs forced items (b :: around))
    (hforced : ∀ id ∈ (b :: around).map OpenBlock.id, forced id) (stop : Position)
    (last : Option TokenId) :
    Told cs forced (items ++ (State.finishBlock stop last b around).items) [] := by
  induction around generalizing b items with
  | nil =>
    obtain ⟨houter, hclosed⟩ := h.pop stop (Or.inr (hforced b.id (by simp)))
    have haccept := Told.accept (s := { lastTopLevel := last }) houter hclosed
    refine haccept.congr ?_
    simp [State.finishBlock, State.accept, State.acceptTopLevel]
  | cons outer rest ih =>
    obtain ⟨houter, hclosed⟩ := h.pop stop (Or.inr (hforced b.id (by simp)))
    have haccept := Told.accept (s := { blocks := outer :: rest }) houter hclosed
    refine (ih haccept ?_).congr (by simp [State.finishBlock, State.accept])
    intro id hid
    exact hforced id (List.mem_cons_of_mem _ (by simpa [OpenBlock.add] using hid))

theorem Told.finishBlocks (h : Told cs forced items s.blocks)
    (hforced : ∀ id ∈ s.blocks.map OpenBlock.id, forced id) :
    Told cs forced (items ++ s.finishBlocks.items) [] := by
  cases hblocks : s.blocks with
  | nil =>
    rw [hblocks] at h
    simpa [State.finishBlocks, hblocks] using h
  | cons b around =>
    rw [hblocks] at h hforced
    rw [State.finishBlocks, hblocks]
    exact h.finishBlock hforced s.next s.lastTopLevel

/-- Everything in a finished run says what the source says. -/
theorem told_scanText (cs : List Char) :
    Told cs (State.after {} cs).LeavesOpen (scanText cs) [] := by
  have hs := State.settled_after cs
  have hpending := State.pending_after cs
  obtain ⟨hs₁, hk₁⟩ := hs.finishComment
  have htold : Told cs (State.after {} cs).LeavesOpen (State.itemsOf {} cs)
      (State.after {} cs).blocks :=
    ⟨fun t ht => ((State.told_after cs).tokens t ht).mono (fun _ => False.elim),
      (State.told_after cs).braces⟩
  have hclosed := (htold.finishComment hs hpending (State.unended_after cs)
    (fun k hk => Or.inl ⟨k, hk, rfl⟩)).finishCurrent hs₁ hk₁ (hpending.finishComment hs)
  refine (hclosed.finishBlocks fun id hid => Or.inr (ids_finish (State.after {} cs) ▸ hid)).congr ?_
  simp [scanText, State.finish]

end End

end Scan

namespace Source

/-- The token was closed because the source ended inside it. -/
def ForceClosed (source : Source) (id : TokenId) : Prop :=
  source.characters.failure = none ∧ (State.after {} source.characters.items).LeavesOpen id

/-- Everything in the items of a source says what the source says. -/
theorem told_tokenize (source : Source) :
    ∃ blocks, Told source.characters.items source.ForceClosed source.tokenize.items blocks := by
  cases hfailure : source.characters.failure with
  | none =>
    have htold := told_scanText source.characters.items
    rw [items_tokenize hfailure]
    exact ⟨[], fun t ht => (htold.tokens t ht).mono fun _ hopen => ⟨hfailure, hopen⟩, htold.braces⟩
  | some failure =>
    have htold := State.told_after source.characters.items
    rw [items_tokenize_of_failure hfailure]
    exact ⟨_, fun t ht => (htold.tokens t ht).mono fun _ => False.elim, htold.braces⟩

/-- Every token of a source says what the source says between its start and its end. -/
theorem token_text (source : Source) {t : Token} (ht : t ∈ source.tokens) :
    t.Says source.characters.items source.ForceClosed := by
  obtain ⟨blocks, htold⟩ := source.told_tokenize
  refine htold.tokens t ?_
  rw [finished, List.flatMap_append]
  exact List.mem_append_left _ ht

/-- An at-rule with a comment in it. -/
theorem token_text_atRule :
    (ofString "@a/**/ b;").tokens =
      [.leaf ⟨0, none, none, ⟨1, 1⟩, ⟨1, 10⟩⟩ (.atRule "a" (some "b") false)] ∧
    AtRuleText (Text.withoutTerminator (bareText "@a/**/ b;".toList ⟨1, 1⟩ ⟨1, 10⟩)) "a"
      (some "b") := by
  have hcharacters : (ofString "@a/**/ b;").characters = { items := "@a/**/ b;".toList } := by
    rw [characters_ofString]
    decide +kernel
  have htokens : (ofString "@a/**/ b;").tokens =
      [.leaf ⟨0, none, none, ⟨1, 1⟩, ⟨1, 10⟩⟩ (.atRule "a" (some "b") false)] := by
    rw [tokens, items_tokenize (by rw [hcharacters]), hcharacters]
    decide +kernel
  refine ⟨htokens, ?_⟩
  have htext := token_text (ofString "@a/**/ b;") (htokens ▸ List.mem_singleton_self _)
  rw [hcharacters] at htext
  exact htext

end Source

end Stylesheet
