import Stylesheet.Proofs.Scan.Forest

set_option autoImplicit false

/-! # Every claim lets the forest grow

`Claim.finishes` says what a finished token can be: one without children that begins in the window
and ends where its rule says (`Rule.stop`), or the innermost block. With it each claim keeps the
forest in order, and so do a run (`State.grown_after`) and its end (`Grown.finish`). -/

namespace Stylesheet.Scan

/-- Where a rule puts the end of the token that it finishes at the character `c`. -/
def Rule.stop (rule : Rule) (s : State) (c : Char) : Position :=
  match rule with
  | .atRule => if c = '{' then s.bodyStop else s.next
  | .selector => s.bodyStop
  | .property => if c = ';' then s.next else s.bodyStop
  | .whitespace => s.position
  | .lineEnding | .comment | .block => s.next

/-- A token without children that a claim finishes: it begins in the window and ends where the rule
says, before the character if that is offered again. -/
structure FinishesLeaf (s : State) (c : Char) (rule : Rule) (s' : State) (id : TokenId)
    (content : Leaf) (start : Position) : Prop where
  blocks : s'.blocks = s.blocks
  begins : ∃ cell ∈ s.window.cells, cell.position = start
  start_lt_stop : start < rule.stop s c
  stop_le_next : rule.stop s c ≤ s.next
  stop_le_position : State.continues content.type rule c = true → rule.stop s c ≤ s.position
  inBlock : content.type = .property → s.blocks ≠ []
  number : (id ∈ s.openIds ∨ s.nextId ≤ id) ∧ (id ∈ s.openIds ∨ id < s'.nextId)

section Step

variable {s s' : State} {cs : List Char} {c : Char} {rule : Rule} {outcome : Outcome}
  {items : List Item}

theorem Claim.lastTopLevel_eq (h : Claim s c rule outcome s') :
    s'.lastTopLevel = s.lastTopLevel := by
  cases h <;> rfl

/-- A finished token has no children, or is the innermost block. -/
theorem Claim.finishes (h : Claim s c rule outcome s') (hs : s.Offered cs c) {t : Token}
    (ht : outcome.token? = some t) :
    s.nextId ≤ s'.nextId ∧
    ((∃ id content start, t = .ofLeaf id content start (rule.stop s c) ∧
        FinishesLeaf s c rule s' id content start) ∨
      ∃ b blocks, s.blocks = b :: blocks ∧ s'.blocks = blocks ∧ s'.nextId = s.nextId ∧
        rule.stop s c = s.next ∧ t = b.close s.next) := by
  have hlt := hs.position_lt_next
  -- a token that begins with the visible text before the character ends with it or with the text
  have hbounds {start last stop : Position}
      (hspan : Cell.span? s.window.body = some (start, last))
      (hstop : stop = s.next ∨ stop = s.bodyStop) : start < stop ∧ stop ≤ s.next := by
    obtain ⟨-, hlast, hlt', hle⟩ := hs.bodyStop_of_span hspan
    rcases hstop with rfl | rfl
    · exact ⟨lt_of_lt_of_le hlt' (le_trans hle (le_of_lt hlt)), le_refl _⟩
    · rw [hlast]
      exact ⟨hlt', le_trans hle (le_of_lt hlt)⟩
  cases h with
  | closeComment k hk _ _ halone =>
    simp only [Outcome.token?, Option.some.injEq] at ht
    obtain ⟨before, inside, slash, star, hbody, -, -, -, hstart, -, -⟩ :=
      hs.coherent.comment k hk
    have hmem : slash ∈ s.window.body := by simp [hbody]
    refine ⟨le_refl _, Or.inl ⟨_, _, _, ht.symm, rfl, ⟨slash, by simp [hs.cells, hmem], hstart⟩,
      ?_, le_refl _, by simp [Leaf.type], by simp [Leaf.type], ?_⟩⟩
    · have hlt' : k.start < s.position := by
        rw [← hstart]
        exact lt_of_lt_of_le slash.position_lt_stop (hs.stop_le_position hmem)
      exact lt_trans hlt' hlt
    · have : k.id ∈ s.openIds := by simp [State.openIds, hk]
      exact ⟨Or.inl this, Or.inl this⟩
  | closeAtRule hk o hcurrent hkind hc =>
    simp only [Outcome.token?, Option.some.injEq] at ht
    obtain ⟨last, hspan⟩ := (hs.coherent.current hk o hcurrent).span (by simp [hkind])
    obtain ⟨hbegins, hstop, -, hle⟩ := hs.bodyStop_of_span hspan
    have hid : o.id ∈ s.openIds := by simp [State.openIds, hcurrent]
    have hends : Rule.atRule.stop s c = s.next ∨ Rule.atRule.stop s c = s.bodyStop := by
      rcases hc with rfl | rfl <;> simp [Rule.stop]
    obtain ⟨hstart, hnext⟩ := hbounds hspan hends
    refine ⟨le_refl _, Or.inl ⟨_, _, _, ht.symm, rfl, hbegins, hstart, hnext, ?_,
      by simp [Leaf.type], Or.inl hid, Or.inl hid⟩⟩
    intro hcontinues
    have hc' : c = '{' := by simpa [Leaf.type] using hcontinues
    simpa [Rule.stop, hc', hstop] using hle
  | selector hk hc _ _ _ start stop hspan =>
    simp only [Outcome.token?, Option.some.injEq] at ht
    obtain ⟨hbegins, hstop, -, hle⟩ := hs.bodyStop_of_span hspan
    have hrule : Rule.selector.stop s c = stop := hstop
    obtain ⟨hstart, hnext⟩ := hbounds hspan (Or.inr rfl)
    refine ⟨Nat.le_succ _, Or.inl ⟨_, _, _, hrule ▸ ht.symm, rfl, hbegins, hstart, hnext, ?_,
      by simp [Leaf.type], Or.inr (le_refl _), Or.inr (Nat.lt_succ_self _)⟩⟩
    intro _
    rw [hrule]
    exact hle
  | closeProperty hk hblocks o hcurrent name hkind hc =>
    simp only [Outcome.token?, Option.some.injEq] at ht
    obtain ⟨last, hspan⟩ := (hs.coherent.current hk o hcurrent).span (by simp [hkind])
    obtain ⟨hbegins, hstop, -, hle⟩ := hs.bodyStop_of_span hspan
    have hid : o.id ∈ s.openIds := by simp [State.openIds, hcurrent]
    have hends : Rule.property.stop s c = s.next ∨ Rule.property.stop s c = s.bodyStop := by
      rcases hc with rfl | rfl <;> simp [Rule.stop]
    obtain ⟨hstart, hnext⟩ := hbounds hspan hends
    refine ⟨le_refl _, Or.inl ⟨_, _, _, ht.symm, rfl, hbegins, hstart, hnext, ?_,
      fun _ => hblocks, Or.inl hid, Or.inl hid⟩⟩
    intro hcontinues
    have hc' : c = '}' := by simpa [Leaf.type] using hcontinues
    simpa [Rule.stop, hc', hstop] using hle
  | closeBlock hk hcurrent hc _ hspan b blocks hb =>
    simp only [Outcome.token?, Option.some.injEq] at ht
    exact ⟨le_refl _, Or.inr ⟨b, blocks, hb, rfl, rfl, rfl, ht.symm⟩⟩
  | closeBlockAfter hk hcurrent hc _ start stop hspan b blocks hb =>
    simp only [Outcome.token?, Option.some.injEq] at ht
    exact ⟨le_refl _, Or.inr ⟨b, blocks, hb, rfl, rfl, rfl, ht.symm⟩⟩
  | closeWhitespace hk o hcurrent hkind hc =>
    simp only [Outcome.token?, Option.some.injEq] at ht
    obtain ⟨⟨first, hfirst, hposition⟩, -⟩ :=
      (hs.coherent.current hk o hcurrent).exists_cell hs.ordered_body
    have hid : o.id ∈ s.openIds := by simp [State.openIds, hcurrent]
    refine ⟨le_refl _, Or.inl ⟨_, _, _, ht.symm, rfl,
      ⟨first, by simp [hs.cells, hfirst], hposition⟩, ?_, le_of_lt hlt, fun _ => le_refl _,
      by simp [Leaf.type], Or.inl hid, Or.inl hid⟩⟩
    rw [← hposition]
    exact lt_of_lt_of_le first.position_lt_stop (hs.stop_le_position hfirst)
  | _ => simp [Outcome.token?] at ht

@[simp] theorem tokensOf_found (outcome : Outcome) : tokensOf outcome.found = [] := by
  cases outcome <;> rfl

/-- A claim that finishes no token keeps the forest; at most it opens a block. -/
theorem Claim.grown (h : Claim s c rule outcome s') (hs : s.Offered cs c) (hg : Grown items s)
    (ht : outcome.token? = none) : Grown (items ++ outcome.found) s' := by
  have hitems : tokensOf (items ++ outcome.found) = tokensOf items := by simp
  have hlast := h.lastTopLevel_eq
  have hnext := h.next_eq
  have hposition : ∃ cell ∈ s.window.cells, cell.position = s.position :=
    ⟨⟨c, s.position⟩, by simp [hs.cells], rfl⟩
  cases h with
  | inComment | inWhitespace =>
    exact hg.keep hitems rfl hlast hnext (fun _ h => h) (le_refl _) (fun _ h => Or.inl h)
  | stripComment k hk =>
    obtain ⟨before, rest, hcells, hcut, -, -⟩ := (hs.coherent.comment k hk).truncate hs.cells
    refine hg.keep hitems rfl hlast hnext ?_ (le_refl _) ?_
    · intro cell hcell
      rw [hcells]
      exact List.mem_append_left _ (by simpa only [hcut] using hcell)
    · intro x hx
      exact Or.inl (List.mem_append_left _ (by simpa [State.openIds] using hx))
  | openComment hk =>
    refine hg.keep hitems rfl hlast hnext (fun _ h => h) (Nat.le_succ _) ?_
    intro x hx
    simp only [State.openIds, State.openComment, Option.toList_some, List.map_cons, List.map_nil,
      List.mem_append, List.mem_singleton] at hx
    rcases hx with hx | rfl
    · exact Or.inl (List.mem_append_left _ hx)
    · exact Or.inr ⟨le_refl _, Nat.lt_succ_self _⟩
  | openAtRule hk hcurrent | openProperty hk _ hcurrent =>
    refine hg.keep hitems rfl hlast hnext (fun _ h => h) (Nat.le_succ _) ?_
    intro x hx
    have hx' : x = s.nextId := by simpa [State.openIds, State.openToken, hk] using hx
    rw [hx']
    exact Or.inr ⟨le_refl _, Nat.lt_succ_self _⟩
  | openWhitespace hk hcurrent hc hblank w hw =>
    refine hg.keep hitems rfl hlast hnext ?_ (Nat.le_succ _) ?_
    · rcases hw with ⟨offset, hbreak, rfl⟩ | ⟨-, -, rfl⟩
      · obtain ⟨front, hcells, -⟩ := hs.window.exists_dropBefore hbreak
        intro cell hcell
        rw [hcells]
        exact List.mem_append_right _ hcell
      · exact fun _ h => h
    · intro x hx
      have hx' : x = s.nextId := by simpa [State.openIds, State.openToken, hk] using hx
      rw [hx']
      exact Or.inr ⟨le_refl _, Nat.lt_succ_self _⟩
  | rejectBlank | rejectContent | strayBrace | strayContent =>
    exact hg.keep hitems rfl hlast hnext (List.nil_subset _) (le_refl _) (fun _ h => Or.inl h)
  | openBlock hk | openUnclaimed hk =>
    exact hg.openBlock hitems hposition hs.position_lt_next rfl hlast hnext rfl rfl
      (State.openIds_eq_nil rfl hk)
  | _ => simp [Outcome.token?] at ht

/-- A finished token keeps the forest, whether its last character is offered again or not. -/
theorem Claim.grown_of_token (h : Claim s c rule outcome s') (hs : s.Offered cs c)
    (hg : Grown items s) {t : Token} (ht : outcome.token? = some t) {s₂ : State}
    (hblocks : s₂.blocks = (s'.complete t).2.blocks)
    (hlast : s₂.lastTopLevel = (s'.complete t).2.lastTopLevel) (hid : s₂.nextId = s'.nextId)
    (hcurrent : s₂.current = s'.current) (hcomment : s₂.comment = s'.comment)
    (hnext : s₂.next = s.next)
    (hwindow : s₂.window.cells =
      if State.continues t.type rule c then [⟨c, s.position⟩] else []) :
    Grown (items ++ outcome.found ++ (s'.complete t).1) s₂ := by
  obtain ⟨hnone, hnone'⟩ := h.eq_none_of_token hs ht
  have hopened : s₂.openIds = [] :=
    State.openIds_eq_nil (hcurrent.trans hnone) (hcomment.trans hnone')
  have hitems : tokensOf (items ++ outcome.found ++ (s'.complete t).1) =
      tokensOf (items ++ ((s'.recordCompleted t).accept t).1) := by
    simp [State.complete]
  obtain ⟨hid', hfinished⟩ := h.finishes hs ht
  rcases hfinished with ⟨id, content, start, rfl, hleaf⟩ | ⟨b, blocks, hb, hb', hsame, -, rfl⟩
  · have hnumber : id < s₂.nextId := by
      rw [hid]
      rcases hleaf.number.2 with hopen | hlt
      · exact lt_of_lt_of_le (hg.opened id hopen).1 hid'
      · exact hlt
    refine hg.accept (s'.recordCompleted _) hleaf.begins hleaf.start_lt_stop hleaf.stop_le_next
      hleaf.inBlock ⟨hleaf.number.1, hnumber⟩ (by rw [hid]; exact hid') hleaf.blocks
      h.lastTopLevel_eq hitems hblocks hlast hnext ?_ hopened
    intro cell hcell
    rw [hwindow] at hcell
    split at hcell
    · next hcontinues =>
      rw [List.mem_singleton.1 hcell]
      exact ⟨by simp [hs.cells], hleaf.stop_le_position hcontinues⟩
    · simp at hcell
  · refine hg.closeBlock (s'.recordCompleted _) hb hb' h.lastTopLevel_eq hitems hblocks hlast
      hnext ?_ (by rw [hid, hsame]) hopened
    simp [hwindow, OpenBlock.close]

end Step

/-! ## A run -/

namespace State

theorem preserves_grown (cs : List Char) (c : Char) :
    Preserves c (fun items s => s.Offered cs c ∧ Grown items s)
      (fun items s => s.OfferedAgain cs c ∧ Grown items s) (fun items s => Grown items s) where
  last h := h.1.last
  first_of_again h := ⟨h.1.toOffered, h.2⟩
  done_of_again h := h.2
  done_of_skip h _ := h.2
  done_of_claim h hclaim ht := hclaim.grown h.1 h.2 ht
  done_of_token h hclaim ht hcontinues :=
    hclaim.grown_of_token h.1 h.2 ht rfl rfl (by simp) (by simp) (by simp)
      (by simp [hclaim.next_eq]) (by simp [hcontinues, Window.cells])
  again_of_token h hclaim ht hcontinues :=
    ⟨hclaim.offeredAgain h.1 ht,
      hclaim.grown_of_token h.1 h.2 ht rfl rfl (by simp [pushAgain]) (by simp [pushAgain])
        (by simp [pushAgain]) (by simp [pushAgain, hclaim.next_eq])
        (by simp [hcontinues, pushAgain, Window.cells, Window.push, hclaim.position_eq])⟩

theorem grown_empty : Grown [] {} where
  nested := ⟨siblings_nil none, by simp⟩
  last := rfl
  increasing := List.Pairwise.nil
  next := by simp [Precedes]
  cells := by simp [Window.cells]
  fresh := by simp [numbers]
  opened := by simp [openIds]

/-- Scanning grows a forest from every text. -/
theorem grown_after (cs : List Char) : Grown (itemsOf {} cs) (State.after {} cs) := by
  induction cs using List.reverseRecOn with
  | nil => exact grown_empty
  | append_singleton cs c ih =>
    rw [itemsOf_concat, after_concat]
    exact (preserves_grown cs c).scan _ ⟨(settled_after cs).arrive c, ih.arrive c⟩

end State

/-! ## The end of the source -/

namespace Grown

variable {items : List Item} {s : State} {cs : List Char}

/-- Everything open began before the next character. -/
theorem start_lt_next (h : Grown items s) (hs : s.Settled cs) :
    (∀ k, s.comment = some k → k.start < s.next) ∧
      (∀ o, s.current = some o → o.start < s.next) ∧ ∀ b ∈ s.blocks, b.start < s.next := by
  have hcell : ∀ cell ∈ s.window.cells, cell.position < s.next := fun cell hcell =>
    lt_of_lt_of_le cell.position_lt_stop (hs.stop_le_next hcell)
  refine ⟨fun k hk => hs.comment_start_lt hk, ?_, fun b hb => (h.next.2 b hb).1⟩
  intro o ho
  cases hk : s.comment with
  | none =>
    obtain ⟨⟨cell, hmem, hposition⟩, -⟩ :=
      (hs.coherent.current hk o ho).exists_cell hs.ordered
    rw [← hposition]
    exact hcell cell hmem
  | some k =>
    -- the token around an open comment begins in the text before the comment
    obtain ⟨before, inside, slash, star, hcells, -, -, -, -, -, hbegins⟩ :=
      hs.coherent.comment k hk
    have hordered := hs.ordered
    rw [hcells] at hordered
    obtain ⟨⟨cell, hmem, hposition⟩, -⟩ :=
      (hbegins o ho).2.exists_cell (hordered.sublist (List.sublist_append_left _ _))
    rw [← hposition]
    exact hcell cell (by simp [hcells, hmem])

theorem finishComment (h : Grown items s) (hs : s.Settled cs) :
    Grown (items ++ s.finishComment.1) s.finishComment.2 := by
  unfold State.finishComment
  split
  · simpa using h
  · next k hk =>
    obtain ⟨before, inside, slash, star, hcells, -, -, -, hstart, -, -⟩ :=
      hs.coherent.comment k hk
    have hid : k.id ∈ s.openIds := by simp [State.openIds, hk]
    dsimp only
    split
    · obtain ⟨before, rest, hcells, hcut, -, -⟩ :=
        (hs.coherent.comment k hk).truncate (List.append_nil _).symm
      refine h.keep (by simp [State.unclosed]) rfl rfl rfl ?_ (le_refl _) ?_
      · intro cell hcell
        rw [hcells]
        exact List.mem_append_left _ (by simpa only [hcut] using hcell)
      · intro x hx
        exact Or.inl (List.mem_append_left _ (by simpa [State.openIds] using hx))
    · next halone =>
      rw [Bool.not_eq_true] at halone
      have hcurrent := ((hs.coherent.comment k hk).of_standalone halone).1
      refine h.accept { s with comment := none } ⟨slash, by simp [hcells], hstart⟩
        ((h.start_lt_next hs).1 k hk) (le_refl _) (by simp [Leaf.type])
        ⟨Or.inl hid, ?_⟩ ?_ rfl rfl ?_ rfl rfl ?_ ?_ ?_
      · simpa [State.clearWindow] using (h.opened _ hid).1
      · simp [State.clearWindow]
      · simp [State.unclosed, OpenComment.close]
      · simp [State.clearWindow]
      · simp [State.clearWindow, Window.cells]
      · exact State.openIds_eq_nil (by simpa [State.clearWindow] using hcurrent)
          (by simp [State.clearWindow])

theorem finishCurrent (h : Grown items s) (hs : s.Settled cs) (hcomment : s.comment = none) :
    Grown (items ++ s.finishCurrent.1) s.finishCurrent.2 := by
  cases hcurrent : s.current with
  | none => simpa [State.finishCurrent, State.closeCurrent?, hcurrent] using h
  | some o =>
    obtain ⟨hbegins, -⟩ := (hs.coherent.current hcomment o hcurrent).exists_cell hs.ordered
    have hid : o.id ∈ s.openIds := by simp [State.openIds, hcurrent]
    simp only [State.finishCurrent, State.closeCurrent?, hcurrent, Option.map_some]
    refine h.accept { s with current := none } hbegins ((h.start_lt_next hs).2.1 o hcurrent)
      (le_refl _) ?_ ⟨Or.inl hid, ?_⟩ ?_ rfl rfl ?_ rfl rfl ?_ ?_ ?_
    · intro hproperty
      cases hkind : o.kind with
      | property name => exact hs.coherent.inBlock o name hcurrent hkind
      | atRule => simp [hkind, State.finalContent, Leaf.type] at hproperty
      | whitespace => simp [hkind, State.finalContent, Leaf.type] at hproperty
    · simpa [State.clearWindow] using (h.opened _ hid).1
    · simp [State.clearWindow]
    · have hfound (found : List Item) (hf : tokensOf found = []) (rest : List Item) :
          tokensOf (items ++ (found ++ rest)) = tokensOf (items ++ rest) := by simp [hf]
      refine hfound _ ?_ _
      split <;> simp [State.unclosed]
    · simp [State.clearWindow]
    · simp [State.clearWindow, Window.cells]
    · exact State.openIds_eq_nil (by simp [State.clearWindow])
        (by simpa [State.clearWindow] using hcomment)

end Grown

/-- Closing the open blocks from the inside out leaves a forest without open blocks. -/
theorem Forest.finishBlock {stop : Position} {b : OpenBlock} {around : List OpenBlock}
    {items : List Item} {s : State} (h : Forest items s) (hblocks : s.blocks = b :: around)
    (hstop : Precedes items s.blocks stop) :
    ∃ s', Forest (items ++ (State.finishBlock stop s.lastTopLevel b around).items) s' := by
  induction around generalizing b items s with
  | nil =>
    obtain ⟨hclosed, -, -⟩ := h.closeBlock hblocks hstop
    refine ⟨_, hclosed.congr ?_ rfl rfl⟩
    simp [State.finishBlock, State.accept, State.acceptTopLevel]
  | cons outer rest ih =>
    obtain ⟨hclosed, hprecedes, -⟩ := h.closeBlock hblocks hstop
    obtain ⟨s', hs'⟩ := ih hclosed rfl hprecedes
    refine ⟨s', hs'.congr ?_ rfl rfl⟩
    simp [State.finishBlock, State.accept]

@[simp] theorem tokensOf_leftover (s : State) : tokensOf s.leftover = [] := by
  unfold State.leftover
  split <;> rfl

/-- The items of a finished run form a forest. -/
theorem Grown.finish {items : List Item} {s : State} {cs : List Char} (h : Grown items s)
    (hs : s.Settled cs) : ∃ s', Forest (items ++ s.finish.items) s' := by
  obtain ⟨hs₁, hcomment⟩ := hs.finishComment
  have h₂ := (h.finishComment hs).finishCurrent hs₁ hcomment
  cases hblocks : s.finishComment.2.finishCurrent.2.blocks with
  | nil =>
    refine ⟨s.finishComment.2.finishCurrent.2, h₂.toForest.congr ?_ rfl rfl⟩
    simp [State.finish, State.finishBlocks, hblocks]
  | cons b around =>
    obtain ⟨s', hs'⟩ := h₂.toForest.finishBlock hblocks h₂.next
    refine ⟨s', hs'.congr ?_ rfl rfl⟩
    simp [State.finish, State.finishBlocks, hblocks]

end Stylesheet.Scan
