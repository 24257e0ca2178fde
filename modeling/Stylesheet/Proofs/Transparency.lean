import Stylesheet.Proofs.Printing
import Stylesheet.Proofs.Scan.Consistency
import Stylesheet.Proofs.Scan.Lockstep
import Stylesheet.Proofs.Source

set_option autoImplicit false

/-! # Comments among other text

A comment in the middle of a selector, a declaration or an at-rule is taken out again when it ends.
The window is then what it was before the comment, and so is everything else but the position and
the next number (`State.after_comment`). From there on the run with the comment and the run without
it go alike, so their items have the same outlines (`scanText_comment`). -/

namespace Stylesheet

/-! ## Outlines -/

/-- The payload without anchors. -/
def Leaf.plain : Leaf → Leaf
  | .selector text _ => .selector text []
  | content => content

mutual

/-- The shape of a token without anchors. -/
def Token.outline : Token → Shape
  | .leaf _ content => .leaf content.plain
  | .block _ children => .block (Token.outlineAll children)

/-- The shapes of a sequence of tokens, without anchors. -/
def Token.outlineAll : List Token → List Shape
  | [] => []
  | t :: ts => t.outline :: Token.outlineAll ts

end

/-- What an item says, wherever it stands. -/
inductive Outline where
  | token (shape : Shape)
  | finding (key : FindingKey) (message : String)

def Item.outline : Item → Outline
  | .token t => .token t.outline
  | .finding f => .finding f.key f.message

section Outlines

variable {L : Likeness}

theorem Leaf.Like.plain_eq {a b : Leaf} (h : a.Like L b) : a.plain = b.plain := by
  cases h <;> rfl

mutual

theorem Token.outline_eq_of_like (t : Token) {u : Token} (h : t.Like L u) :
    t.outline = u.outline := by
  cases h with
  | leaf _ hcontent => rw [Token.outline, Token.outline, hcontent.plain_eq]
  | block _ hchildren =>
    rw [Token.outline, Token.outline, Token.outlineAll_eq_of_like _ hchildren]

theorem Token.outlineAll_eq_of_like (ts : List Token) {us : List Token}
    (h : List.Forall₂ (Token.Like L) ts us) : Token.outlineAll ts = Token.outlineAll us := by
  cases h with
  | nil => rfl
  | cons ht hts =>
    rw [Token.outlineAll, Token.outlineAll, Token.outline_eq_of_like _ ht,
      Token.outlineAll_eq_of_like _ hts]

end

theorem map_outline_eq_of_like {items items' : List Item}
    (h : List.Forall₂ (Item.Like L) items items') :
    items.map Item.outline = items'.map Item.outline := by
  induction h with
  | nil => rfl
  | cons hitem _ ih =>
    rw [List.map_cons, List.map_cons, ih]
    cases hitem with
    | token ht => rw [Item.outline, Item.outline, Token.outline_eq_of_like _ ht]
    | finding hf =>
      rw [Item.outline, Item.outline, Finding.key, Finding.message, hf.issue_eq]
      rfl

end Outlines

/-! ## The loosest likeness -/

/-- Any positions, numbers and anchors correspond. -/
def Likeness.loose : Likeness where
  position _ _ := True
  id _ _ := True
  anchors _ _ := True
  advance _ _ := trivial
  widen _ _ := trivial
  succ _ := trivial
  anchorsFrom _ _ _ := trivial

theorem Placement.like_loose (p q : Placement) : p.Like .loose q := ⟨trivial, trivial, trivial⟩

theorem Leaf.like_loose (content : Leaf) : content.Like .loose content := by
  cases content with
  | selector text anchors => exact .selector text trivial
  | _ => exact .refl (by simp [Leaf.type])

mutual

theorem Token.like_loose (t : Token) : t.Like .loose t := by
  cases t with
  | leaf place content => exact .leaf (place.like_loose _) content.like_loose
  | block place children => exact .block (place.like_loose _) (Token.likeAll_loose children)

theorem Token.likeAll_loose (ts : List Token) : List.Forall₂ (Token.Like .loose) ts ts := by
  cases ts with
  | nil => exact .nil
  | cons t ts => exact .cons t.like_loose (Token.likeAll_loose ts)

end

theorem Item.like_loose (item : Item) : item.Like .loose item := by
  cases item with
  | token t => exact .token t.like_loose
  | finding f => exact .finding ⟨rfl, trivial, trivial⟩

namespace Scan

namespace State

/-- A state is like another with the same window, token and blocks and no comment. -/
theorem like_loose {s t : State} (hwindow : s.window = t.window) (hsound : t.window.Sound)
    (hcomment : s.comment = none) (hcomment' : t.comment = none) (hcurrent : s.current = t.current)
    (hblocks : s.blocks = t.blocks) : s.Like .loose [] t where
  next := trivial
  window := by
    rw [hwindow]
    exact ⟨List.forall₂_same.2 fun cell _ => ⟨rfl, trivial⟩, hsound, hsound⟩
  comment := by
    rw [hcomment, hcomment']
    exact .none
  blocks := by
    refine ⟨t.blocks, (List.append_nil _).symm, ?_⟩
    rw [hblocks]
    exact List.forall₂_same.2 fun b _ => ⟨trivial, trivial, trivial, Token.likeAll_loose _⟩
  nextId := trivial
  current := by
    rw [hcurrent]
    cases t.current with
    | none => exact .none
    | some o => exact .some ⟨trivial, rfl, trivial⟩

/-! ## Scanning a comment -/

/-- A comment may begin here in the middle of other text: something other than indentation has
begun, and a slash and a star are not part of a string or an address. -/
structure Interruptible (s : State) : Prop where
  comment : s.comment = none
  opened : (∃ o, s.current = some o ∧ (o.kind = .atRule ∨ ∃ name, o.kind = .property name)) ∨
    s.current = none ∧ s.window.isBlank = false
  string : Text.insideString s.window.text = false
  url : Text.insideUrl s.window.text = false

variable {s t : State} {c : Char}

theorem scan_of_firstClaim_none (h : firstClaim Rule.order.tail (s.arrive c) = (none, s.arrive c)) :
    (s.scan c).1.items = [] ∧ (s.scan c).2 = s.arrive c := by
  rw [(scan_eq s c).1, (scan_eq s c).2]
  simp [scanPasses, h]

/-- The rule for comments is the first to see a character. -/
theorem scan_of_consumed {s' : State} (h : (s.arrive c).scanComment = (.consumed, s')) :
    (s.scan c).1.items = [] ∧ (s.scan c).2 = s' := by
  have hrule : Rule.comment.scan (s.arrive c) = (.consumed, s') := by
    simp [Rule.scan, arrive, ← h]
  have hfirst : firstClaim Rule.order.tail (s.arrive c) = (some (.comment, .consumed), s') :=
    firstClaim_of_scan hrule (by simp)
  rw [(scan_eq s c).1, (scan_eq s c).2]
  simp [scanPasses, hfirst, Outcome.token?, Outcome.finding?]

/-- The slash of a comment waits in the window for the star. -/
theorem Interruptible.scan_slash (h : s.Interruptible) :
    (s.scan '/').1.items = [] ∧ (s.scan '/').2 = s.arrive '/' := by
  apply scan_of_firstClaim_none
  rcases firstClaim_cases (c := '/') Rule.order.tail (s := s.arrive '/') (by simp [arrive])
    lineEnding_not_mem_tail with ⟨hnone, -⟩ | ⟨rule, outcome, s', -, -, hclaim⟩
  · exact hnone
  · have hcomment : (s.arrive '/').comment = none := h.comment
    exfalso
    cases hclaim with
    | inComment k hk | stripComment k hk | closeComment k hk => simp [hcomment] at hk
    | openComment hk star slash before hrecent hstar =>
      simp only [arrive, Window.push, List.cons.injEq] at hrecent
      rw [← hrecent.1] at hstar
      simp at hstar
    | closeAtRule hk o hcurrent hkind hc => simp at hc
    | closeProperty hk hblocks o hcurrent name hkind hc => simp at hc
    | openAtRule hk hcurrent hc | openProperty hk hblocks hcurrent hc
    | rejectBlank hk hblocks hcurrent hc | rejectContent hk hblocks hcurrent hc
    | selector hk hc | openBlock hk hc | openUnclaimed hk hc | closeBlock hk hcurrent hc
    | closeBlockAfter hk hcurrent hc | strayBrace hk hcurrent hc | strayContent hk hcurrent hc =>
      simp at hc
    | openWhitespace hk hcurrent hc => exact absurd hc (by decide)
    | inWhitespace hk o hcurrent hkind hc => exact absurd hc (by decide)
    | closeWhitespace hk o hcurrent hkind =>
      rcases h.opened with ⟨o', ho', hkind'⟩ | ⟨hnone, -⟩
      · have hsame : o = o' := by
          rw [← Option.some.injEq, ← hcurrent]
          exact ho'
        subst hsame
        rcases hkind' with hkind' | ⟨name, hkind'⟩ <;> simp [hkind] at hkind'
      · rw [show (s.arrive '/').current = none from hnone] at hcurrent
        simp at hcurrent

/-- The run has read the opening of a comment after the text pending in `s`, and then `inside`. -/
structure InComment (s : State) (inside : List Char) (t : State) : Prop where
  window : t.window.Sound
  cells : ∃ (slash star : Cell) (cells : List Cell),
    t.window.cells = s.window.cells ++ slash :: star :: cells ∧ slash.char = '/' ∧
      star.char = '*' ∧ Cell.text cells = inside
  comment : ∃ k, t.comment = some k ∧ k.offset = Text.byteSize s.window.text ∧ k.embedded = true
  current : t.current = s.current
  blocks : t.blocks = s.blocks

/-- A slash and a star open a comment among the text pending in the state. -/
theorem Interruptible.inComment (h : s.Interruptible) (hs : s.window.Sound) :
    s.itemsOf ['/', '*'] = [] ∧ s.InComment [] (s.after ['/', '*']) := by
  have hstar : ((s.arrive '/').arrive '*').scanComment = (.consumed,
      ((s.arrive '/').arrive '*').openComment
        (((s.arrive '/').arrive '*').window.bytes - 2) s.next true) := by
    have htext : Cell.text s.window.recent.reverse = s.window.text := rfl
    have hembedded : (s.current.isSome || !Text.allBlank s.window.text) = true := by
      rcases h.opened with ⟨o, ho, -⟩ | ⟨-, hblank⟩
      · simp [ho]
      · rw [Window.isBlank, hs.hasText, Bool.not_not] at hblank
        simp [hblank]
    simp only [scanComment, arrive, h.comment, beginComment, Window.push, htext, h.string, h.url]
    simp [hembedded]
  obtain ⟨hitems, hstate⟩ := scan_of_consumed hstar
  refine ⟨?_, ?_⟩
  · simp [h.scan_slash.1, h.scan_slash.2, hitems]
  · rw [after_cons, h.scan_slash.2, after_cons, hstate, after_nil]
    refine ⟨(hs.push _ _).push _ _,
      ⟨⟨'/', s.next⟩, ⟨'*', (s.arrive '/').next⟩, [], ?_, rfl, rfl, rfl⟩,
      ⟨_, rfl, ?_, rfl⟩, rfl, rfl⟩
    · simp [openComment, arrive]
    · have htwo : Char.utf8Size '/' + Char.utf8Size '*' = 2 := rfl
      simp only [arrive, Window.push, hs.bytes]
      omega

/-- A character after the opening of a comment goes into it, or ends it and takes it out. -/
theorem InComment.scan {inside : List Char} (h : s.InComment inside t) (c : Char) :
    (t.scan c).1.items = [] ∧
      (¬ ['*', '/'] <:+ inside ++ [c] → s.InComment (inside ++ [c]) (t.scan c).2) ∧
      (['*', '/'] <:+ inside ++ [c] → s.window.Sound → (t.scan c).2.window = s.window ∧
        (t.scan c).2.comment = none ∧ (t.scan c).2.current = s.current ∧
        (t.scan c).2.blocks = s.blocks) := by
  obtain ⟨slash, star, cells, hcells, hslash, hstar, rfl⟩ := h.cells
  obtain ⟨k, hk, hoffset, hembedded⟩ := h.comment
  have hsound : (t.arrive c).window.Sound := h.window.push c t.next
  have hcells' : (t.arrive c).window.cells =
      s.window.cells ++ slash :: star :: (cells ++ [⟨c, t.next⟩]) := by
    simp [arrive, hcells]
  have hiff := Window.isOpen_iff hsound.bytes hcells' hslash hstar
  rw [show Cell.text (cells ++ [⟨c, t.next⟩]) = Cell.text cells ++ [c] by simp,
    show Text.byteSize (Cell.text s.window.cells) = k.offset from hoffset.symm] at hiff
  have hk' : (t.arrive c).comment = some k := hk
  by_cases hends : ['*', '/'] <:+ Cell.text cells ++ [c]
  · have hscan : (t.arrive c).scanComment = (.consumed, { t.arrive c with
        comment := none, window := (t.arrive c).window.truncate k.offset }) := by
      simp only [scanComment, hk', continueComment]
      rw [if_neg (by rw [hiff, not_not]; exact hends), if_pos hembedded]
    obtain ⟨hitems, hstate⟩ := scan_of_consumed hscan
    refine ⟨hitems, fun hnot => absurd hends hnot, ?_⟩
    intro _ hs
    rw [hstate]
    refine ⟨?_, rfl, h.current, h.blocks⟩
    exact (hsound.truncate _).eq_of_cells hs (Window.cells_truncate hcells' hoffset.symm)
  · have hscan : (t.arrive c).scanComment = (.consumed, t.arrive c) := by
      simp only [scanComment, hk', continueComment]
      rw [if_pos (hiff.2 hends)]
    obtain ⟨hitems, hstate⟩ := scan_of_consumed hscan
    refine ⟨hitems, fun _ => ?_, fun hyes => absurd hyes hends⟩
    rw [hstate]
    exact ⟨hsound, ⟨slash, star, _, hcells', hslash, hstar, by simp⟩,
      ⟨k, hk, hoffset, hembedded⟩, h.current, h.blocks⟩

/-- Text without an end of a comment stays in the comment. -/
theorem InComment.after {inside : List Char} (h : s.InComment inside t) (cs : List Char)
    (hnone : ¬ ['*', '/'] <:+: inside ++ cs) :
    t.itemsOf cs = [] ∧ s.InComment (inside ++ cs) (t.after cs) := by
  induction cs generalizing inside t with
  | nil => simpa using h
  | cons c cs ih =>
    have hends : ¬ ['*', '/'] <:+ inside ++ [c] := by
      intro hsuffix
      apply hnone
      rw [List.append_cons]
      exact hsuffix.isInfix.trans (List.prefix_append _ _).isInfix
    obtain ⟨hitems, hinside, -⟩ := h.scan c
    have hmore := ih (hinside hends) (by simpa using hnone)
    simpa [hitems] using hmore

/-- A comment among other text leaves no trace in the window and in what is open. -/
theorem Interruptible.after_comment (h : s.Interruptible) (hs : s.window.Sound) {body : List Char}
    (hbody : ¬ ['*', '/'] <:+: body) :
    s.itemsOf (['/', '*'] ++ body ++ ['*', '/']) = [] ∧
      (s.after (['/', '*'] ++ body ++ ['*', '/'])).Like .loose [] s := by
  obtain ⟨hopen, hin⟩ := h.inComment hs
  -- the star of the end is still inside, and the slash after it takes the comment out
  have hstar : ¬ ['*', '/'] <:+: [] ++ (body ++ ['*']) := by
    rw [List.nil_append, List.infix_concat_iff, not_or]
    refine ⟨?_, hbody⟩
    rintro ⟨front, hfront⟩
    have hlast := congrArg List.getLast? hfront
    simp at hlast
  obtain ⟨hitems, hin⟩ := hin.after _ hstar
  obtain ⟨hlast, -, hout⟩ := hin.scan '/'
  obtain ⟨hwindow, hcomment, hcurrent, hblocks⟩ := hout ⟨body, by simp⟩ hs
  have hsplit : ['/', '*'] ++ body ++ ['*', '/'] = ['/', '*'] ++ (body ++ ['*']) ++ ['/'] := by simp
  rw [hsplit]
  refine ⟨?_, like_loose ?_ hs ?_ h.comment ?_ ?_⟩
  · rw [itemsOf_append, itemsOf_append, hopen, hitems, after_append, itemsOf_cons, hlast]
    rfl
  all_goals
    rw [after_append, after_append, after_cons, after_nil]
    assumption

end State

/-! ## The rest of the run -/

/-- A comment among other text changes no outline of what a text becomes. -/
theorem scanText_comment (before body after : List Char)
    (h : (State.after {} before).Interruptible) (hbody : ¬ ['*', '/'] <:+: body) :
    (scanText (before ++ (['/', '*'] ++ body ++ ['*', '/']) ++ after)).map Item.outline =
      (scanText (before ++ after)).map Item.outline := by
  have hs := (State.settled_after before).window
  obtain ⟨hitems, hlike⟩ := h.after_comment hs hbody
  have hne : before ≠ [] := by
    rintro rfl
    rcases h.opened with ⟨o, ho, -⟩ | ⟨-, hblank⟩
    · simp at ho
    · simp [Window.isBlank] at hblank
  have hmatched : Matched .loose []
      (State.itemsOf {} (before ++ (['/', '*'] ++ body ++ ['*', '/'])))
      (State.itemsOf {} before)
      (State.after {} (before ++ (['/', '*'] ++ body ++ ['*', '/']))) (State.after {} before) := by
    refine ⟨[], rfl, ?_, ?_⟩
    · rw [State.itemsOf_append, hitems, List.append_nil]
      exact List.forall₂_same.2 fun item _ => item.like_loose
    · rw [State.after_append]
      exact hlike
  have hrun := (hmatched.after (by simp [hne]) hne after).finish
  rw [← State.itemsOf_append, ← State.itemsOf_append] at hrun
  exact map_outline_eq_of_like hrun

end Scan

namespace Source

/-- A comment among other text changes nothing about the items of a text but positions, anchors and
numbers. -/
theorem outline_tokenize_comment (a b body : List Char)
    (h : (Scan.State.after {} (ofString (String.ofList a)).characters.items).Interruptible)
    (hbody : ¬ ['*', '/'] <:+: body) :
    (ofString (String.ofList (a ++ ['/', '*'] ++ body ++ ['*', '/'] ++ b))).tokenize.items.map
        Item.outline =
      (ofString (String.ofList (a ++ b))).tokenize.items.map Item.outline := by
  rw [characters_ofString, String.toList_ofList] at h
  -- something is pending after `a`, so a byte-order mark can only stand in front of it
  obtain ⟨c, rest, rfl⟩ : ∃ c rest, a = c :: rest := by
    cases a with
    | nil =>
      rcases h.opened with ⟨o, ho, -⟩ | ⟨-, hblank⟩
      · simp [dropMark] at ho
      · simp [dropMark, Window.isBlank] at hblank
    | cons c rest => exact ⟨c, rest, rfl⟩
  have hmark (ds : List Char) : dropMark (c :: rest ++ ds) = dropMark (c :: rest) ++ ds := by
    simp only [dropMark, List.cons_append]
    split <;> rfl
  rw [items_tokenize_ofString, items_tokenize_ofString, hmark b]
  have hsplit : c :: rest ++ ['/', '*'] ++ body ++ ['*', '/'] ++ b =
      c :: rest ++ ((['/', '*'] ++ body ++ ['*', '/']) ++ b) := by simp
  rw [hsplit, hmark, ← List.append_assoc]
  exact Scan.scanText_comment _ body b h hbody

/-- A comment in the middle of a declaration, with a slash right after its opening. -/
theorem outline_tokenize_comment_declaration :
    let a := ['a', '{', 'b', ':', 'c']
    let b := ['d', '}']
    (Scan.State.after {} (ofString (String.ofList a)).characters.items).Interruptible ∧
    ¬ ['*', '/'] <:+: ['/'] ∧
    (ofString (String.ofList (a ++ ['/', '*'] ++ ['/'] ++ ['*', '/'] ++ b))).tokenize.items.map
        Item.outline =
      (ofString (String.ofList (a ++ b))).tokenize.items.map Item.outline := by
  intro a b
  have hcharacters : (ofString (String.ofList a)).characters.items = a := by
    rw [characters_ofString]
    decide
  have h : (Scan.State.after {} (ofString (String.ofList a)).characters.items).Interruptible := by
    rw [hcharacters]
    exact ⟨by decide +kernel, Or.inl ⟨⟨2, .property "b", ⟨1, 3⟩⟩, by decide +kernel,
      Or.inr ⟨"b", rfl⟩⟩, by decide +kernel, by decide +kernel⟩
  have hbody : ¬ ['*', '/'] <:+: ['/'] := by decide
  exact ⟨h, hbody, outline_tokenize_comment _ _ _ h hbody⟩

end Source

end Stylesheet
