import Stylesheet.Proofs.Scan.Alike

set_option autoImplicit false

/-! # Runs in lockstep

Two runs in states that are alike put out the same. When the second is in blocks that the first
knows nothing about, what the first puts out becomes a child of the innermost of them instead
(`Sent`). `State.scanPasses_like` is the result for one character. With no such blocks it gives that
for a text (`Matched.after`) and for its end (`Matched.finish`). -/

namespace Stylesheet.Scan

variable {L : Likeness}

/-! ## What the runs put out -/

/-- What tells an open block from the others, whatever it holds. -/
def OpenBlock.frame (b : OpenBlock) : TokenId × Position := (b.id, b.start)

/-- What two runs have put out. Without a block around it, the second puts out what the first does;
else its tokens have become children of the innermost block around it. -/
def Sent (L : Likeness) (items items' : List Item) : List OpenBlock → Prop
  | [] => List.Forall₂ (Item.Like L) items items'
  | b :: _ => List.Forall₂ (Token.Like L) (tokensOf items) b.children ∧ tokensOf items' = [] ∧
      List.Forall₂ (Finding.Like L) (findingsOf items) (findingsOf items')

/-- Two runs that have put out the same and are in states that are alike, the second one inside the
blocks with the given frames. -/
def Matched (L : Likeness) (frames : List (TokenId × Position)) (items items' : List Item)
    (s t : State) : Prop :=
  ∃ base, base.map OpenBlock.frame = frames ∧ Sent L items items' base ∧ s.Like L base t

section Sent

variable {base : List OpenBlock} {items items' : List Item}

theorem Sent.finding (h : Sent L items items' base) {f g : Finding} (hfg : f.Like L g) :
    Sent L (items ++ [.finding f]) (items' ++ [.finding g]) base := by
  cases base with
  | nil => exact rel_concat h (.finding hfg)
  | cons b base =>
    obtain ⟨htokens, hnone, hfindings⟩ := h
    refine ⟨?_, ?_, ?_⟩
    · simpa using htokens
    · simpa using hnone
    · simpa using rel_concat hfindings hfg

theorem Sent.found (h : Sent L items items' base) {outcome outcome' : Outcome}
    (houtcome : outcome.Like L outcome') :
    Sent L (items ++ outcome.found) (items' ++ outcome'.found) base := by
  cases houtcome with
  | finding hfg => exact h.finding hfg
  | recovered _ hfg => exact h.finding hfg
  | skip | consumed | token => simpa [Outcome.found, Outcome.finding?] using h

/-- A finished token goes to corresponding places. -/
theorem Sent.accept (h : Sent L items items' base) {s t : State} (hst : s.Like L base t)
    {u u' : Token} (hu : u.Like L u') :
    ∃ base', base'.map OpenBlock.frame = base.map OpenBlock.frame ∧
      Sent L (items ++ (s.accept u).1) (items' ++ (t.accept u').1) base' ∧
      (s.accept u).2.Like L base' (t.accept u').2 := by
  obtain ⟨inner, hblocks, hinner⟩ := hst.blocks
  cases hs : s.blocks with
  | cons b blocks =>
    rw [hs] at hinner
    obtain ⟨b', around, hb, haround, rfl⟩ := List.forall₂_cons_left_iff.1 hinner
    refine ⟨base, rfl, ?_, ?_⟩
    · simpa [State.accept, hs, hblocks] using h
    · simp only [State.accept, hs, hblocks, List.cons_append]
      exact ⟨⟨hst.next, hst.window, hst.comment, ⟨_, rfl, .cons (hb.add hu) haround⟩, hst.nextId⟩,
        hst.current⟩
  | nil =>
    rw [hs] at hinner
    rw [List.forall₂_nil_left_iff.1 hinner, List.nil_append] at hblocks
    cases base with
    | nil =>
      refine ⟨[], rfl, ?_, ?_⟩
      · simp only [State.accept, State.acceptTopLevel, hs, hblocks]
        exact rel_concat h (.token (hu.linkedAfter _ _))
      · simp only [State.accept, State.acceptTopLevel, hs, hblocks]
        exact ⟨⟨hst.next, hst.window, hst.comment, ⟨[], rfl, .nil⟩, hst.nextId⟩, hst.current⟩
    | cons b base =>
      obtain ⟨htokens, hnone, hfindings⟩ := h
      refine ⟨b.add u' :: base, rfl, ⟨?_, ?_, ?_⟩, ?_⟩
      · simpa [State.accept, State.acceptTopLevel, hs] using
          rel_concat htokens (hu.linkedAfter_childOf _ _ _)
      · simpa [State.accept, hblocks] using hnone
      · simpa [State.accept, State.acceptTopLevel, hs, hblocks] using hfindings
      · simp only [State.accept, State.acceptTopLevel, hs, hblocks]
        exact ⟨⟨hst.next, hst.window, hst.comment, ⟨[], rfl, .nil⟩, hst.nextId⟩, hst.current⟩

end Sent

/-! ## One character -/

section Step

variable {base : List OpenBlock} {items items' : List Item} {s s' t t' : State}
  {cs ds : List Char} {c : Char} {rule : Rule} {outcome outcome' : Outcome}

/-- A character that is not blank begins no indentation. -/
theorem State.sameStart_of_visible (hs : s.window.Sound) (hlast : s.window.last? = some c)
    (hc : Text.isBlank c = false) : s.SameStart t := by
  intro _ hblank
  obtain ⟨p, hcells⟩ := cells_of_last? hlast
  have := hs.isBlank_iff.1 hblank ⟨c, p⟩ (by simp [hcells])
  simp [hc] at this

/-- A pass that finishes a token leaves states that are alike and face each other. -/
theorem Sent.complete (hsent : Sent L items items' base) (h : s'.Like L base t')
    (hposition : L.position s'.position t'.position) (houtcome : outcome.Like L outcome')
    {u : Token} (hu : outcome.token? = some u) (c : Char) :
    ∃ u' base', outcome'.token? = some u' ∧ u.type = u'.type ∧
      base'.map OpenBlock.frame = base.map OpenBlock.frame ∧
      Sent L (items ++ outcome.found ++ (s'.complete u).1)
        (items' ++ outcome'.found ++ (t'.complete u').1) base' ∧
      (s'.complete u).2.Like L base' (t'.complete u').2 ∧
      ((s'.complete u).2.pushAgain c).Like L base' ((t'.complete u').2.pushAgain c) ∧
      ((s'.complete u).2.pushAgain c).Facing L ((t'.complete u').2.pushAgain c) := by
  obtain ⟨u', hu', huu⟩ : ∃ u', outcome'.token? = some u' ∧ u.Like L u' := by
    cases houtcome with
    | token htu | recovered htu _ =>
      simp only [Outcome.token?, Option.some.injEq] at hu
      subst hu
      exact ⟨_, rfl, htu⟩
    | _ => simp [Outcome.token?] at hu
  have hrecorded : (s'.recordCompleted u).Like L base (t'.recordCompleted u') :=
    ⟨⟨h.next, h.window, h.comment, h.blocks, h.nextId⟩, h.current⟩
  obtain ⟨base', hframes, hsent', hlike⟩ := (hsent.found houtcome).accept hrecorded huu
  have hcomplete : (s'.complete u).2.Like L base' (t'.complete u').2 :=
    ⟨hlike.toBeside.clearWindow, hlike.current⟩
  have hposition' : L.position (s'.complete u).2.position (t'.complete u').2.position := by
    rw [State.position_complete, State.position_complete]
    exact hposition
  refine ⟨u', base', hu', huu.type_eq, hframes, hsent', hcomplete, ?_, ?_, ?_⟩
  · exact ⟨⟨hcomplete.next, hcomplete.window.push c hposition', hcomplete.comment,
      hcomplete.blocks, hcomplete.nextId⟩, hcomplete.current⟩
  · exact hposition'
  · rw [header?_pushAgain, header?_pushAgain, ← huu.type_eq]
    split
    · exact .some huu.place.start
    · exact .none

/-- Two runs that offer a character in states that are alike treat it alike, pass after pass, as
long as it means the same to both. -/
theorem State.scanPasses_like {frames : List (TokenId × Position)}
    {Q : List Item → List Item → State → State → Prop}
    (hmatched : ∀ {items items' s t}, Matched L frames items items' s t → Q items items' s t)
    (hapart : ∀ {items items' base s t} (passes : Nat) (rules : List Rule),
      base.map OpenBlock.frame = frames → Sent L items items' base → s.Like L base t →
      s.Facing L t → s.Offered cs c → t.Offered ds c → s.comment = none → ¬ s.Aligned t c →
      Rule.lineEnding ∉ rules →
      Q (items ++ (scanPasses c (passes + 1) rules s).1.items)
        (items' ++ (scanPasses c (passes + 1) rules t).1.items)
        (scanPasses c (passes + 1) rules s).2 (scanPasses c (passes + 1) rules t).2)
    (passes : Nat) {rules : List Rule} (hrules : Rule.lineEnding ∉ rules)
    (hframes : base.map OpenBlock.frame = frames) (hsent : Sent L items items' base)
    (h : s.Like L base t) (hface : s.Facing L t) (hs : s.Offered cs c) (ht : t.Offered ds c)
    (hstart : s.SameStart t) :
    Q (items ++ (scanPasses c passes rules s).1.items)
      (items' ++ (scanPasses c passes rules t).1.items)
      (scanPasses c passes rules s).2 (scanPasses c passes rules t).2 := by
  induction passes generalizing rules base items items' s t with
  | zero => simpa [scanPasses] using hmatched ⟨base, hframes, hsent, h⟩
  | succ passes ih =>
    -- inside a comment nothing else is looked at, so the runs need not agree about the character
    by_cases haligned : s.comment = none → s.Aligned t c
    · rcases h.firstClaim hface hs ht hstart haligned rules hrules with
        ⟨hnone, hnone'⟩ | ⟨rule, outcome, outcome', s', t', hsome, hsome', hclaim, hclaim',
          houtcome, hlike⟩
      · simpa [scanPasses, hnone, hnone'] using hmatched ⟨base, hframes, hsent, h⟩
      · have hposition : L.position s'.position t'.position := by
          rw [hclaim.position_eq, hclaim'.position_eq]
          exact hface.position
        simp only [scanPasses, hsome, hsome']
        cases hu : outcome.token? with
        | none =>
          have hu' : outcome'.token? = none := by
            cases houtcome with
            | token | recovered => simp [Outcome.token?] at hu
            | _ => rfl
          simp only [hu']
          exact hmatched ⟨base, hframes, hsent.found houtcome, hlike⟩
        | some u =>
          obtain ⟨u', base', hu', htype, hframes', hsent', hdone, hagain, hface'⟩ :=
            hsent.complete hlike hposition houtcome hu c
          simp only [hu', ← htype]
          split
          · next hcontinues =>
            have hs' := hclaim.offeredAgain hs hu
            have ht' := hclaim'.offeredAgain ht hu'
            have hvisible := hclaim.isBlank_eq_false hu hcontinues
            have hmore := ih (lineEnding_not_mem_rescanRules rule) (hframes'.trans hframes) hsent'
              hagain hface' hs'.toOffered ht'.toOffered
              (sameStart_of_visible hs'.window hs'.last hvisible)
            simpa [Outcome.found, List.append_assoc] using hmore
          · simpa [Outcome.found, List.append_assoc] using
              hmatched ⟨base', hframes'.trans hframes, hsent', hdone⟩
    · obtain ⟨hcomment, hapart'⟩ := Classical.not_imp.1 haligned
      exact hapart passes rules hframes hsent h hface hs ht hcomment hapart' hrules

end Step

/-! ## A text -/

section Run

variable {items items' : List Item} {s t : State} {cs ds : List Char}

theorem State.Beside.arrive {base : List OpenBlock} (h : s.Beside L base t) (c : Char) :
    (s.arrive c).Beside L base (t.arrive c) :=
  ⟨L.advance c h.next, h.window.push c h.next, h.comment, h.blocks, h.nextId⟩

theorem State.Like.arrive {base : List OpenBlock} (h : s.Like L base t) (c : Char) :
    (s.arrive c).Like L base (t.arrive c) :=
  ⟨h.toBeside.arrive c, h.current⟩

theorem State.Beside.facing_arrive {base : List OpenBlock} {c : Char}
    (h : (State.after {} cs).Beside L base (State.after {} ds)) :
    ((State.after {} cs).arrive c).Facing L ((State.after {} ds).arrive c) where
  position := h.next
  header := by
    rw [header?_arrive, header?_arrive]
    exact .none

/-- After their first characters two runs agree that the source has begun. -/
theorem State.Like.sameStart_arrive {base : List OpenBlock} {c : Char}
    (h : (State.after {} cs).Like L base (State.after {} ds)) (hcs : cs ≠ []) (hds : ds ≠ []) :
    ((State.after {} cs).arrive c).SameStart ((State.after {} ds).arrive c) := by
  intro hcurrent hblank _
  have hcurrent' : (State.after {} ds).current = none := eq_none_of_rel h.current hcurrent
  have hblank' := hblank
  rw [(h.arrive c).window.isBlank_eq] at hblank'
  exact iff_of_false (start?_arrive_ne hcs c hcurrent hblank)
    (start?_arrive_ne hds c hcurrent' hblank')

/-- Two runs that are in no block, or in corresponding ones, stay matched over a character if they
agree whether the source has begun. -/
theorem Matched.scan_of_sameStart {c : Char}
    (h : Matched L [] items items' (State.after {} cs) (State.after {} ds))
    (hstart : ((State.after {} cs).arrive c).SameStart ((State.after {} ds).arrive c)) :
    Matched L [] (items ++ ((State.after {} cs).scan c).1.items)
      (items' ++ ((State.after {} ds).scan c).1.items) ((State.after {} cs).scan c).2
      ((State.after {} ds).scan c).2 := by
  obtain ⟨base, hframes, hsent, hlike⟩ := h
  rw [(State.scan_eq _ c).1, (State.scan_eq _ c).1, (State.scan_eq _ c).2, (State.scan_eq _ c).2]
  refine State.scanPasses_like (Q := Matched L []) id ?_ 7
    State.lineEnding_not_mem_tail hframes hsent (hlike.arrive c) hlike.toBeside.facing_arrive
    ((State.settled_after cs).arrive c) ((State.settled_after ds).arrive c) hstart
  intro items items' base s t passes rules hframes _ hst _ _ _ _ hapart _
  refine absurd ?_ hapart
  intro hnil
  obtain ⟨inner, hblocks, hinner⟩ := hst.blocks
  rw [hnil] at hinner
  rw [List.map_eq_nil_iff.1 hframes, List.forall₂_nil_left_iff.1 hinner] at hblocks
  exact Or.inl hblocks

theorem Matched.scan (h : Matched L [] items items' (State.after {} cs) (State.after {} ds))
    (hcs : cs ≠ []) (hds : ds ≠ []) (c : Char) :
    Matched L [] (items ++ ((State.after {} cs).scan c).1.items)
      (items' ++ ((State.after {} ds).scan c).1.items) ((State.after {} cs).scan c).2
      ((State.after {} ds).scan c).2 := by
  have hstart : ((State.after {} cs).arrive c).SameStart ((State.after {} ds).arrive c) := by
    obtain ⟨base, -, -, hlike⟩ := h
    exact hlike.sameStart_arrive hcs hds
  exact h.scan_of_sameStart hstart

/-- Two matched runs stay matched over a text. -/
theorem Matched.after (h : Matched L [] items items' (State.after {} cs) (State.after {} ds))
    (hcs : cs ≠ []) (hds : ds ≠ []) (es : List Char) :
    Matched L [] (items ++ (State.after {} cs).itemsOf es)
      (items' ++ (State.after {} ds).itemsOf es) (State.after {} (cs ++ es))
      (State.after {} (ds ++ es)) := by
  induction es using List.reverseRecOn with
  | nil => simpa using h
  | append_singleton es c ih =>
    have hstep := ih.scan (by simp [hcs]) (by simp [hds]) c
    simpa [State.after_append, State.itemsOf_append, List.append_assoc] using hstep

/-! ## The end -/

theorem Sent.finishComment {base : List OpenBlock} (hsent : Sent L items items' base)
    (h : s.Like L base t) :
    ∃ base', base'.map OpenBlock.frame = base.map OpenBlock.frame ∧
      Sent L (items ++ s.finishComment.1) (items' ++ t.finishComment.1) base' ∧
      s.finishComment.2.Like L base' t.finishComment.2 := by
  unfold State.finishComment
  rcases eq_none_or_some_of_rel h.comment with ⟨hk, hk'⟩ | ⟨k, k', hk, hk', hkk⟩
  · simp only [hk, hk', List.append_nil]
    exact ⟨base, rfl, hsent, h⟩
  · simp only [hk, hk', ← hkk.embedded_eq, ← hkk.offset_eq, ← h.window.bytes_eq,
      ← h.window.text_eq]
    have hfound := hsent.finding (like_spanning (.unclosed .comment) hkk.start h.next)
    split
    · exact ⟨base, rfl, hfound,
        ⟨h.next, h.window.truncate _, .none, h.blocks, h.nextId⟩, h.current⟩
    · have hclosed : { s with comment := none }.Like L base { t with comment := none } :=
        ⟨⟨h.next, h.window, .none, h.blocks, h.nextId⟩, h.current⟩
      obtain ⟨base', hframes, hsent', hlike⟩ := hfound.accept hclosed (hkk.close _ h.next)
      exact ⟨base', hframes, by simpa [State.unclosed] using hsent', hlike.toBeside.clearWindow,
        hlike.current⟩

theorem Sent.finishCurrent {base : List OpenBlock} (hsent : Sent L items items' base)
    (h : s.Like L base t) :
    ∃ base', base'.map OpenBlock.frame = base.map OpenBlock.frame ∧
      Sent L (items ++ s.finishCurrent.1) (items' ++ t.finishCurrent.1) base' ∧
      s.finishCurrent.2.Like L base' t.finishCurrent.2 := by
  unfold State.finishCurrent State.closeCurrent?
  rcases eq_none_or_some_of_rel h.current with ⟨ho, ho'⟩ | ⟨o, o', ho, ho', hoo⟩
  · simp only [ho, ho', Option.map_none, List.append_nil]
    exact ⟨base, rfl, hsent, h⟩
  · simp only [ho, ho', Option.map_some, ← hoo.kind_eq, ← h.window.text_eq]
    have hcontent : (State.finalContent o.kind s.window.text).type ≠ .selector := by
      cases o.kind <;> simp [State.finalContent, Leaf.type]
    have hclose := hoo.close hcontent h.next
    have hclosed := State.Like.withoutCurrent h.toBeside
    rw [← hclose.type_eq]
    split
    · obtain ⟨base', hframes, hsent', hlike⟩ := hsent.accept hclosed hclose
      exact ⟨base', hframes, by simpa using hsent', hlike.toBeside.clearWindow, hlike.current⟩
    · have hfound := hsent.finding (like_spanning
        (.unclosed (o.close (State.finalContent o.kind s.window.text) s.next).type)
        hclose.place.start h.next)
      obtain ⟨base', hframes, hsent', hlike⟩ := hfound.accept hclosed hclose
      exact ⟨base', hframes, by simpa [State.unclosed, Token.start] using hsent',
        hlike.toBeside.clearWindow, hlike.current⟩

theorem like_finishBlock {stop stop' : Position} (hstop : L.position stop stop')
    (last last' : Option TokenId) {b b' : OpenBlock} (hb : b.Like L b')
    {around around' : List OpenBlock}
    (haround : List.Forall₂ (OpenBlock.Like L) around around') :
    List.Forall₂ (Item.Like L) (State.finishBlock stop last b around).items
      (State.finishBlock stop' last' b' around').items := by
  induction haround generalizing b b' with
  | nil =>
    exact .cons (.finding (like_spanning _ hb.headerStart hstop))
      (.cons (.token ((hb.close hstop).linkedAfter _ _)) .nil)
  | cons houter _ ih =>
    exact .cons (.finding (like_spanning _ hb.headerStart hstop)) (ih (houter.add (hb.close hstop)))

theorem State.Like.finishBlocks (h : s.Like L [] t) :
    List.Forall₂ (Item.Like L) s.finishBlocks.items t.finishBlocks.items := by
  obtain ⟨inner, hblocks, hinner⟩ := h.blocks
  rw [List.append_nil] at hblocks
  subst hblocks
  unfold State.finishBlocks
  revert hinner
  generalize s.blocks = blocks
  generalize t.blocks = blocks'
  intro hinner
  cases hinner with
  | nil => exact .nil
  | cons hb haround => exact like_finishBlock h.next _ _ hb haround

theorem State.Like.leftover {base : List OpenBlock} (h : s.Like L base t) :
    List.Forall₂ (Item.Like L) s.leftover t.leftover := by
  unfold State.leftover
  rw [← h.window.text_eq]
  rcases Cell.span?_of_like h.window.cells with ⟨hs, ht⟩ | ⟨_, _, _, _, hs, ht, hstart, hstop⟩
  · rw [hs, ht]
    exact .nil
  · rw [hs, ht]
    exact .cons (.finding (like_spanning _ hstart hstop)) .nil

/-- Matched runs end alike. -/
theorem Matched.finish (h : Matched L [] items items' s t) :
    List.Forall₂ (Item.Like L) (items ++ s.finish.items) (items' ++ t.finish.items) := by
  obtain ⟨base, hframes, hsent, hlike⟩ := h
  obtain ⟨base₁, hframes₁, hsent₁, hlike₁⟩ := hsent.finishComment hlike
  obtain ⟨base₂, hframes₂, hsent₂, hlike₂⟩ := hsent₁.finishCurrent hlike₁
  obtain rfl : base₂ = [] := List.map_eq_nil_iff.1 (hframes₂.trans (hframes₁.trans hframes))
  have hall := List.rel_append (List.rel_append hsent₂ hlike₂.finishBlocks) hlike₂.leftover
  simpa [State.finish, List.append_assoc] using hall

end Run

end Stylesheet.Scan
