import Mathlib.Data.List.Nodup
import Stylesheet.Proofs.Scan.Openers
import Stylesheet.Proofs.Scan.Uncommented

set_option autoImplicit false

/-! # The tokens finished so far

While a text is scanned, `finished` lists the tokens that are complete, at any depth: those that are
out and those that wait in open blocks. A claim adds at most the one token it finishes, and a token
in the list stays there as it is; closing a block around it does not touch it. So what holds of
every token when it is finished, and is not spoiled by later characters, holds of every token of a
source. -/

namespace Stylesheet.Scan

/-- The tokens finished so far, at any depth. -/
def finished (items : List Item) (blocks : List OpenBlock) : List Token :=
  (tokensOf items ++ blocks.flatMap OpenBlock.children).flatMap Token.preorder

section Lists

variable {items items' : List Item} {blocks : List OpenBlock} {s : State} {u : Token}

theorem finished_congr (h : tokensOf items' = tokensOf items) :
    finished items' blocks = finished items blocks := by
  rw [finished, finished, h]

@[simp] theorem finished_nil (items : List Item) :
    finished items [] = (tokensOf items).flatMap Token.preorder := by
  simp [finished]

/-- What waits in a block is finished as well. -/
theorem mem_finished_cons {b : OpenBlock} :
    u ∈ finished items (b :: blocks) ↔
      u ∈ finished items blocks ∨ u ∈ b.children.flatMap Token.preorder := by
  simp only [finished, List.flatMap_cons, List.flatMap_append, List.mem_append]
  tauto

/-- The token as it stands in the sequence that accepts it. -/
def State.linked (s : State) (t : Token) : Token :=
  match s.blocks with
  | [] => t.linkedAfter s.lastTopLevel
  | b :: _ => t.childOf b.id (b.recent.head?.map Token.id)

theorem State.exists_linked (s : State) (t : Token) :
    ∃ p : Placement, p.id = t.id ∧ p.start = t.start ∧ p.stop = t.stop ∧
      s.linked t = t.withPlace p := by
  unfold State.linked
  split
  · exact ⟨{ t.place with previous := s.lastTopLevel }, rfl, rfl, rfl, rfl⟩
  · next b _ _ =>
    exact ⟨{ t.place with parent := some b.id, previous := b.recent.head?.map Token.id }, rfl, rfl,
      rfl, rfl⟩

@[simp] theorem State.children_linked (s : State) (t : Token) :
    (s.linked t).children = t.children := by
  obtain ⟨p, -, -, -, hlinked⟩ := s.exists_linked t
  rw [hlinked, Token.children_withPlace]

@[simp] theorem State.type_linked (s : State) (t : Token) : (s.linked t).type = t.type := by
  obtain ⟨p, -, -, -, hlinked⟩ := s.exists_linked t
  rw [hlinked, Token.type_withPlace]

@[simp] theorem State.id_linked (s : State) (t : Token) : (s.linked t).id = t.id := by
  obtain ⟨p, hid, -, -, hlinked⟩ := s.exists_linked t
  rw [hlinked, Token.id, Token.place_withPlace, hid]

@[simp] theorem State.start_linked (s : State) (t : Token) : (s.linked t).start = t.start := by
  obtain ⟨p, -, hstart, -, hlinked⟩ := s.exists_linked t
  rw [hlinked, Token.start, Token.place_withPlace, hstart]

/-- An accepted token joins the others with all that is in it. -/
theorem mem_finished_accept (items : List Item) (s : State) (t : Token) {u : Token} :
    u ∈ finished (items ++ (s.accept t).1) (s.accept t).2.blocks ↔
      u ∈ finished items s.blocks ∨ u ∈ (s.linked t).preorder := by
  unfold State.linked
  cases hblocks : s.blocks with
  | nil =>
    obtain ⟨htokens, hnil, -⟩ := Forest.tokensOf_accept_of_nil items t hblocks
    rw [hnil, finished_nil, finished_nil, htokens, List.flatMap_append, List.mem_append]
    simp
  | cons b blocks =>
    obtain ⟨htokens, hcons, -⟩ := Forest.tokensOf_accept_of_cons items t hblocks
    rw [hcons, finished_congr htokens, mem_finished_cons, mem_finished_cons,
      OpenBlock.children_add, List.flatMap_append, List.mem_append, or_assoc]
    simp

/-- The innermost sequence that is still open. -/
def sequenceOf (items : List Item) : List OpenBlock → List Token
  | [] => tokensOf items
  | b :: _ => b.children

theorem sequenceOf_congr (h : tokensOf items' = tokensOf items) :
    sequenceOf items' blocks = sequenceOf items blocks := by
  cases blocks <;> simp [sequenceOf, h]

theorem sequenceOf_accept (items : List Item) (s : State) (t : Token) :
    sequenceOf (items ++ (s.accept t).1) (s.accept t).2.blocks =
      sequenceOf items s.blocks ++ [s.linked t] := by
  unfold State.linked
  cases hblocks : s.blocks with
  | nil =>
    obtain ⟨htokens, hnil, -⟩ := Forest.tokensOf_accept_of_nil items t hblocks
    rw [hnil, sequenceOf, htokens, sequenceOf]
  | cons b blocks =>
    obtain ⟨-, hcons, -⟩ := Forest.tokensOf_accept_of_cons items t hblocks
    rw [hcons, sequenceOf, OpenBlock.children_add, sequenceOf]

end Lists

/-! ## One claim -/

section Step

variable {items : List Item} {s s' : State} {cs : List Char} {c : Char} {rule : Rule}
  {outcome : Outcome} {t : Token}

theorem Claim.finished_eq (h : Claim s c rule outcome s') (ht : outcome.token? = none)
    (items : List Item) :
    finished (items ++ outcome.found) s'.blocks = finished items s.blocks := by
  have htokens : tokensOf (items ++ outcome.found) = tokensOf items := by simp
  rw [finished_congr htokens]
  rcases h.blocks_cases ht with hblocks | ⟨-, id, header, hblocks⟩
  · rw [hblocks]
  · rw [hblocks, finished, finished, List.flatMap_cons]
    rfl

/-- A claim adds the token it finishes and nothing else: what is in a block has been finished
before it. -/
theorem Claim.mem_finished_of_token (h : Claim s c rule outcome s') (hs : s.Offered cs c)
    (ht : outcome.token? = some t) (items : List Item) {u : Token} :
    u ∈ finished (items ++ outcome.found ++ (s'.complete t).1) (s'.complete t).2.blocks ↔
      u ∈ finished items s.blocks ∨ u = s'.linked t := by
  have htokens : tokensOf (items ++ outcome.found) = tokensOf items := by simp
  refine (mem_finished_accept (items ++ outcome.found) (s'.recordCompleted t) t).trans ?_
  rw [show (s'.recordCompleted t).linked t = s'.linked t from rfl, finished_congr htokens,
    Token.preorder_eq_cons, State.children_linked, List.mem_cons]
  rcases (h.finishes hs ht).2 with
    ⟨id, content, start, rfl, hleaf⟩ | ⟨b, blocks, hb, hb', -, -, rfl⟩
  · rw [show (s'.recordCompleted _).blocks = s.blocks from hleaf.blocks]
    simp
  · rw [show (s'.recordCompleted _).blocks = blocks from hb', hb, mem_finished_cons]
    simp only [OpenBlock.close, Token.children_ofChildren]
    tauto

theorem Claim.eq_brace_of_block (h : Claim s c rule outcome s') {t : Token}
    (ht : outcome.token? = some t) (htype : t.type = .block) : c = '}' := by
  cases h with
  | closeBlock hk _ hc | closeBlockAfter hk _ hc => exact hc
  | closeComment | closeAtRule | selector | closeProperty | closeWhitespace =>
    simp only [Outcome.token?, Option.some.injEq] at ht
    rw [← ht] at htype
    simp [OpenToken.close, OpenComment.close, Leaf.type] at htype
  | _ => simp [Outcome.token?] at ht

/-- The token that a brace finishes is no block. -/
theorem Claim.blocks_of_brace (h : Claim s '{' rule outcome s') (hs : s.Offered cs '{')
    (ht : outcome.token? = some t) : s'.blocks = s.blocks := by
  rcases (h.finishes hs ht).2 with ⟨id, content, start, -, hleaf⟩ | ⟨b, blocks, -, -, -, -, rfl⟩
  · exact hleaf.blocks
  · exact absurd (h.eq_brace_of_block ht rfl) (by decide)

/-- A brace that finishes a token and opens a block adds just that token. -/
theorem Claim.mem_finished_reopened (h : Claim s '{' rule (.token t) s') (hs : s.Offered cs '{')
    (items : List Item) {u : Token} :
    u ∈ finished (items ++ (s'.complete t).1) (s'.reopened t).blocks ↔
      u ∈ finished items s.blocks ∨ u = s'.linked t := by
  have hmem := h.mem_finished_of_token hs rfl items (u := u)
  rw [show items ++ Outcome.found (.token t) = items from List.append_nil _] at hmem
  show u ∈ finished (items ++ (s'.complete t).1) (_ :: (s'.complete t).2.blocks) ↔ _
  rw [mem_finished_cons, hmem]
  simp [OpenBlock.children]

theorem State.preserves_finished (t : Token) (cs : List Char) (c : Char) :
    Preserves c (fun items s => s.Offered cs c ∧ t ∈ finished items s.blocks)
      (fun items s => s.OfferedAgain cs c ∧ t ∈ finished items s.blocks)
      (fun items s => t ∈ finished items s.blocks) where
  last h := h.1.last
  first_of_again h := ⟨h.1.toOffered, h.2⟩
  done_of_again h := h.2
  done_of_skip h _ := h.2
  done_of_claim h hclaim ht := by
    rw [hclaim.finished_eq ht]
    exact h.2
  done_of_token h hclaim ht _ := (hclaim.mem_finished_of_token h.1 ht _).2 (Or.inl h.2)
  again_of_token h hclaim ht _ :=
    ⟨hclaim.offeredAgain h.1 ht, (hclaim.mem_finished_of_token h.1 ht _).2 (Or.inl h.2)⟩

/-- What has been finished stays finished. -/
theorem State.finished_subset (cs ds : List Char) :
    finished (itemsOf {} cs) (State.after {} cs).blocks ⊆
      finished (itemsOf {} (cs ++ ds)) (State.after {} (cs ++ ds)).blocks := by
  intro t ht
  induction ds using List.reverseRecOn with
  | nil => simpa using ht
  | append_singleton ds c ih =>
    rw [← List.append_assoc, itemsOf_concat, after_concat]
    exact (preserves_finished t (cs ++ ds) c).scan _ ⟨(settled_after _).arrive c, ih⟩

end Step

/-! ## Numbers -/

/-- The finished tokens and the open blocks have the numbers given out, each its own. -/
theorem perm_numbers (items : List Item) (blocks : List OpenBlock) :
    ((finished items blocks).map Token.id ++ blocks.map OpenBlock.id).Perm
      (numbers items blocks) := by
  have hids (ts : List Token) : (ts.flatMap Token.preorder).map Token.id = ts.flatMap Token.ids :=
    List.map_flatMap
  induction blocks with
  | nil => simp [numbers, hids]
  | cons b blocks ih =>
    refine List.perm_iff_count.2 fun id => ?_
    have hcount := List.perm_iff_count.1 ih id
    simp only [finished, List.flatMap_append, List.map_append, hids, List.count_append] at hcount
    simp only [finished, numbers, List.flatMap_append, List.flatMap_cons, List.map_append, hids,
      List.map_cons, List.count_append, List.count_cons]
    omega

/-- A finished token is determined by its number. -/
theorem Forest.eq_of_mem_finished {items : List Item} {s : State} (h : Forest items s)
    {t u : Token} (ht : t ∈ finished items s.blocks) (hu : u ∈ finished items s.blocks)
    (hid : t.id = u.id) : t = u := by
  have hnodup := (perm_numbers items s.blocks).nodup_iff.2 (h.increasing.imp ne_of_lt)
  exact List.inj_on_of_nodup_map hnodup.of_append_left ht hu hid

/-- A token that a brace finishes takes the next number, and the block after it takes another. -/
theorem Claim.numbers_reopened {s s' : State} {cs : List Char} {rule : Rule} {t : Token}
    (h : Claim s '{' rule (.token t) s') (hs : s.Offered cs '{') (items : List Item) :
    numbers items s.blocks ++ t.ids <+:
      numbers (items ++ (s'.complete t).1) (s'.reopened t).blocks := by
  have haccept := Forest.numbers_accept items (s'.recordCompleted t) t
  rw [show (s'.recordCompleted t).blocks = s.blocks from h.blocks_of_brace hs rfl] at haccept
  rw [← haccept]
  exact List.prefix_append _ _

/-- The number that an opening brace is remembered for is that of the one token which is finished
after the brace and was not before it. -/
theorem finishedId?_eq_some_iff (before : List Char) {id : TokenId} :
    (State.after {} (before ++ ['{'])).finishedId? = some id ↔
      ∃ t ∈ finished (State.itemsOf {} (before ++ ['{']))
          (State.after {} (before ++ ['{'])).blocks,
        t ∉ finished (State.itemsOf {} before) (State.after {} before).blocks ∧ t.id = id := by
  have hs := (State.settled_after before).arrive '{'
  have hgrown := State.grown_after (before ++ ['{'])
  have hopening := opening before
  rw [State.itemsOf_concat, State.after_concat] at hgrown ⊢
  generalize ((State.after {} before).scan '{').1.items = newItems at hopening hgrown ⊢
  generalize ((State.after {} before).scan '{').2 = last at hopening hgrown ⊢
  have hnothing (hnone : last.finishedId? = none)
      (hsame : finished (State.itemsOf {} before ++ newItems) last.blocks =
        finished (State.itemsOf {} before) (State.after {} before).blocks) :
      last.finishedId? = some id ↔ ∃ t ∈ finished (State.itemsOf {} before ++ newItems) last.blocks,
        t ∉ finished (State.itemsOf {} before) (State.after {} before).blocks ∧ t.id = id := by
    rw [hnone, hsame]
    simp only [reduceCtorEq, false_iff, not_exists]
    rintro t ⟨ht, hnot, -⟩
    exact hnot ht
  cases hopening with
  | passes _ hblocks hnone =>
    refine hnothing hnone ?_
    rw [List.append_nil, hblocks]
    rfl
  | atOnce outcome _ _ hclaim ht =>
    exact hnothing (finishedId?_eq_none hclaim.completed_eq hclaim.position_eq)
      (hclaim.finished_eq ht _)
  | afterToken rule t s' hclaim =>
    have hmem {u : Token} := hclaim.mem_finished_reopened hs (State.itemsOf {} before) (u := u)
    -- the number of the token is larger than those given out before
    have hfresh : s'.linked t ∉
        finished (State.itemsOf {} before) (State.after {} before).blocks := by
      intro hold
      have hnumber : t.id ∈ numbers (State.itemsOf {} before) (State.after {} before).blocks := by
        rw [← s'.id_linked t]
        exact (perm_numbers _ _).subset (List.mem_append_left _ (List.mem_map_of_mem hold))
      have hincreasing := hgrown.increasing.sublist (hclaim.numbers_reopened hs _).sublist
      rw [Token.ids_eq_cons] at hincreasing
      have hlt := (List.pairwise_append.1 hincreasing).2.2
      exact lt_irrefl _ (hlt t.id hnumber t.id (List.mem_cons_self ..))
    rw [State.finishedId?_reopened, Option.some.injEq]
    constructor
    · rintro rfl
      exact ⟨s'.linked t, hmem.2 (Or.inr rfl), hfresh, s'.id_linked t⟩
    · rintro ⟨u, hu, hnot, rfl⟩
      rw [(hmem.1 hu).resolve_left hnot, State.id_linked]

/-! ## Later comments -/

section Later

variable {cs : List Char} {t : Token}

theorem span_mem_claimed {items : List Item} {s : State} (ht : t ∈ finished items s.blocks)
    (htext : t.type.isText = true) : t.span ∈ claimed items s := by
  obtain ⟨u, hu, ht⟩ := List.mem_flatMap.1 ht
  have hspan : t.span ∈ u.textSpans := List.mem_map_of_mem (List.mem_filter.2 ⟨ht, htext⟩)
  rcases List.mem_append.1 hu with hu | hu
  · obtain ⟨item, hitem, hitem'⟩ := List.mem_filterMap.1 hu
    cases item with
    | finding f => simp [Item.token?] at hitem'
    | token v =>
      simp only [Item.token?, Option.some.injEq] at hitem'
      subst hitem'
      exact List.mem_append_left _ (List.mem_flatMap.2 ⟨_, hitem, hspan⟩)
  · obtain ⟨b, hb, hu⟩ := List.mem_flatMap.1 hu
    refine List.mem_append_right _ (List.mem_flatMap.2 ⟨b, hb, List.mem_flatMap.2 ⟨u, ?_, hspan⟩⟩)
    simpa [OpenBlock.children] using hu

theorem stop_le_of_mem_finished
    (ht : t ∈ finished (State.itemsOf {} cs) (State.after {} cs).blocks)
    (htext : t.type.isText = true) : t.stop ≤ Position.start.advanceAll cs := by
  rw [← (State.settled_after cs).next]
  exact (State.tiling_after cs).stop_le_next _ (span_mem_claimed ht htext)

/-- A comment opened after a token was finished begins after it. -/
theorem comment_of_mem_finished {c : Char} {k : OpenComment}
    (ht : t ∈ finished (State.itemsOf {} cs) (State.after {} cs).blocks)
    (htext : t.type.isText = true) (hk : (State.after {} (cs ++ [c])).comment = some k) :
    (State.after {} cs).comment = some k ∨ t.stop ≤ k.start := by
  rcases State.comment_cases hk with hk | ⟨slash, hslash, hstart⟩
  · exact Or.inl hk
  · rw [← hstart]
    exact Or.inr ((State.tiling_after cs).stop_le_cell _ (span_mem_claimed ht htext) slash hslash)

end Later

/-! ## The end of the source -/

/-- The new tokens are the old ones and others that are not of the type. -/
structure Extends (type : TokenType) (old new : List Token) : Prop where
  subset : old ⊆ new
  added : ∀ t ∈ new, t ∈ old ∨ t.type ≠ type

theorem Extends.refl (type : TokenType) (tokens : List Token) : Extends type tokens tokens where
  subset := List.Subset.refl _
  added _ ht := Or.inl ht

theorem Extends.trans {type : TokenType} {a b c : List Token} (hab : Extends type a b)
    (hbc : Extends type b c) : Extends type a c where
  subset := List.Subset.trans hab.subset hbc.subset
  added t ht := by
    rcases hbc.added t ht with ht | hother
    · exact hab.added t ht
    · exact Or.inr hother

/-- The tokens of the type stay the same. -/
theorem Extends.mem_iff {type : TokenType} {old new : List Token} (h : Extends type old new)
    {t : Token} (htype : t.type = type) : t ∈ new ↔ t ∈ old :=
  ⟨fun ht => (h.added t ht).resolve_right (not_not.2 htype), fun ht => h.subset ht⟩

section End

variable {items : List Item} {s : State} {type : TokenType}

theorem extends_acceptLeaf (items : List Item) (s : State) {id : TokenId} {content : Leaf}
    {start stop : Position} (hcontent : content.type ≠ type) :
    Extends type (finished items s.blocks)
      (finished (items ++ (s.accept (.ofLeaf id content start stop)).1)
        (s.accept (.ofLeaf id content start stop)).2.blocks) := by
  refine ⟨fun u hu => (mem_finished_accept items s _).2 (Or.inl hu), ?_⟩
  intro u hu
  rcases (mem_finished_accept items s _).1 hu with hu | hu
  · exact Or.inl hu
  · obtain rfl : u = s.linked (.ofLeaf id content start stop) := by
      simpa [Token.preorder_eq_cons] using hu
    exact Or.inr (by simpa using hcontent)

theorem extends_finishComment (htype : type ≠ .comment) (items : List Item) (s : State) :
    Extends type (finished items s.blocks)
      (finished (items ++ s.finishComment.1) s.finishComment.2.blocks) := by
  unfold State.finishComment
  split
  · rw [List.append_nil]
    exact Extends.refl _ _
  · next k hk =>
    dsimp only
    split
    · rw [finished_congr (show tokensOf (items ++ _) = tokensOf items by simp [State.unclosed])]
      exact Extends.refl _ _
    · rw [List.append_cons]
      refine Extends.trans ?_ (extends_acceptLeaf _ { s with comment := none } htype.symm)
      rw [finished_congr (show tokensOf (items ++ [_]) = tokensOf items by simp [State.unclosed])]
      exact Extends.refl _ _

/-- The token that the end of the source closes joins the others. -/
theorem mem_finished_finishCurrent (items : List Item) (s : State) {u : Token} :
    u ∈ finished (items ++ s.finishCurrent.1) s.finishCurrent.2.blocks ↔
      u ∈ finished items s.blocks ∨ ∃ o, s.current = some o ∧
        u = s.linked (o.close (State.finalContent o.kind s.window.text) s.next) := by
  unfold State.finishCurrent State.closeCurrent?
  cases ho : s.current with
  | none => simp
  | some o =>
    simp only [Option.map_some, ← List.append_assoc, Option.some.injEq, exists_eq_left']
    refine (mem_finished_accept _ { s with current := none } _).trans (or_congr ?_ ?_)
    · rw [finished_congr (show tokensOf (items ++ _) = tokensOf items by
        split <;> simp [State.unclosed])]
    · rw [Token.preorder_eq_cons, State.children_linked]
      exact List.mem_singleton

theorem extends_finishCurrent (items : List Item) (s : State) :
    Extends .selector (finished items s.blocks)
      (finished (items ++ s.finishCurrent.1) s.finishCurrent.2.blocks) := by
  refine ⟨fun u hu => (mem_finished_finishCurrent items s).2 (Or.inl hu), ?_⟩
  intro u hu
  rcases (mem_finished_finishCurrent items s).1 hu with hu | ⟨o, -, rfl⟩
  · exact Or.inl hu
  · refine Or.inr ?_
    cases hkind : o.kind <;> simp [OpenToken.close, State.finalContent, Leaf.type]

/-- A block that is closed is the only new token: what is in it has been finished before. -/
theorem extends_close (htype : type ≠ .block) (items : List Item) (s : State) (b : OpenBlock)
    (stop : Position) :
    Extends type (finished items (b :: s.blocks))
      (finished (items ++ (s.accept (b.close stop)).1) (s.accept (b.close stop)).2.blocks) := by
  have hmem {u : Token} := mem_finished_accept items s (b.close stop) (u := u)
  simp only [Token.preorder_eq_cons, State.children_linked, List.mem_cons] at hmem
  refine ⟨?_, ?_⟩
  · intro u hu
    rw [mem_finished_cons] at hu
    exact hmem.2 (hu.imp_right Or.inr)
  · intro u hu
    rw [mem_finished_cons]
    rcases hmem.1 hu with hu | rfl | hu
    · exact Or.inl (Or.inl hu)
    · exact Or.inr (by simpa [OpenBlock.close] using htype.symm)
    · exact Or.inl (Or.inr hu)

theorem extends_finishBlock (htype : type ≠ .block) (items : List Item) (stop : Position)
    (last : Option TokenId) (b : OpenBlock) (around : List OpenBlock) :
    Extends type (finished items (b :: around))
      (finished (items ++ (State.finishBlock stop last b around).items) []) := by
  induction around generalizing b items with
  | nil =>
    have hclosed := extends_close htype items { lastTopLevel := last } b stop
    refine hclosed.trans ?_
    simp [State.finishBlock, State.accept, State.acceptTopLevel, Extends.refl]
  | cons outer rest ih =>
    have hclosed := extends_close htype items { blocks := outer :: rest } b stop
    simp only [State.accept, List.append_nil] at hclosed
    refine hclosed.trans ?_
    have hrest := ih items (outer.add (b.close stop))
    simpa [State.finishBlock] using hrest

theorem extends_finishBlocks (htype : type ≠ .block) (items : List Item) (s : State) :
    Extends type (finished items s.blocks) (finished (items ++ s.finishBlocks.items) []) := by
  unfold State.finishBlocks
  split
  · next hblocks =>
    rw [hblocks, List.append_nil]
    exact Extends.refl _ _
  · next b around hblocks =>
    rw [hblocks]
    exact extends_finishBlock htype _ _ _ _ _

/-- At the end a comment, a token and blocks may be finished, in this order. -/
theorem finished_finish (items : List Item) (s : State) :
    finished (items ++ s.finish.items) [] =
      finished (items ++ s.finishComment.1 ++ s.finishComment.2.finishCurrent.1 ++
        s.finishComment.2.finishCurrent.2.finishBlocks.items) [] :=
  finished_congr (by simp [State.finish])

theorem extends_finish (items : List Item) (s : State) :
    Extends .selector (finished items s.blocks) (finished (items ++ s.finish.items) []) := by
  rw [finished_finish]
  exact (extends_finishComment (by decide) items s).trans
    ((extends_finishCurrent _ _).trans (extends_finishBlocks (by decide) _ _))

end End

end Stylesheet.Scan
