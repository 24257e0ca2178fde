import Stylesheet.Proofs.Breaks.Rule
import Stylesheet.Proofs.Scan.Past

set_option autoImplicit false

/-! # Runs in both spellings

A run over a text with line breaks of two characters goes through the states of the run over the
same text with line feeds, in the other spelling (`State.after_crlf`), and its items are the same in
the other spelling (`scanText_crlf`). A line break is one step here and two there. Both of its
characters are blank, and the first of them changes nothing but the window: blanks become
indentation only at a line feed or at the very beginning of the source. -/

namespace Stylesheet.Scan

/-! ## Finished tokens -/

namespace Outcome

variable (outcome : Outcome)

@[simp] theorem crlf_eq_skip_iff : outcome.crlf = .skip ↔ outcome = .skip := by
  cases outcome <;> simp [crlf]

@[simp] theorem token?_crlf : outcome.crlf.token? = outcome.token?.map Token.crlf := by
  cases outcome <;> rfl

@[simp] theorem found_crlf : outcome.crlf.found = outcome.found.map Item.crlf := by
  cases outcome <;> rfl

end Outcome

namespace State

variable {s s' : State} {cs : List Char} {c : Char} {rule : Rule} {outcome : Outcome}

theorem accept_crlf (s : State) (t : Token) :
    s.crlf.accept t.crlf = ((s.accept t).1.map Item.crlf, (s.accept t).2.crlf) := by
  cases hblocks : s.blocks with
  | nil => simp [accept, crlf, hblocks, acceptTopLevel, Item.crlf]
  | cons b blocks => simp [accept, crlf, hblocks, OpenBlock.crlf_add]

theorem complete_crlf (hk : s.comment = none) (t : Token) :
    s.crlf.complete t.crlf = ((s.complete t).1.map Item.crlf, (s.complete t).2.crlf) := by
  have hrecord : s.crlf.recordCompleted t.crlf = (s.recordCompleted t).crlf := by
    simp [recordCompleted, crlf]
  have hk' : ((s.recordCompleted t).accept t).2.comment = none := by
    simpa [recordCompleted] using hk
  simp only [complete, hrecord, accept_crlf, crlf_clearWindow hk']

theorem pushAgain_crlf (hk : s.comment = none) (hc : c ≠ '\n') :
    s.crlf.pushAgain c = (s.pushAgain c).crlf := by
  simp [pushAgain, crlf, hk, Window.crlf_push _ hc]

/-- The state with the last character standing elsewhere. Two spellings of a line break differ in
where the last character stands; the next character stands in the same place. -/
def withPosition (s : State) (p : Position) : State := { s with position := p }

/-! ## Characters other than line breaks -/

theorem Offered.not_mem_text (hs : s.Offered cs c) (hr : '\r' ∉ cs ++ [c]) :
    '\r' ∉ s.window.text := by
  intro hmem
  have hsublist := hs.cells_sublist.map Cell.char
  rw [← Cell.text, ← Cell.text, Cell.text_ofText] at hsublist
  exact hr (hsublist.subset hmem)

theorem firstClaim_crlf (hs : s.Offered cs c) (hc : c ≠ '\n') (hr : '\r' ∉ cs ++ [c])
    (rules : List Rule) (hrules : Rule.lineEnding ∉ rules) :
    firstClaim rules s.crlf =
      ((firstClaim rules s).1.map (Prod.map id Outcome.crlf), (firstClaim rules s).2.crlf) := by
  induction rules with
  | nil => rfl
  | cons rule rules ih =>
    simp only [List.mem_cons, not_or] at hrules
    have hscan := Rule.scan_crlf hs hc (hs.not_mem_text hr) rule (Ne.symm hrules.1)
    rcases Rule.scan_cases hs.last (Ne.symm hrules.1) with hskip | hclaim
    · rw [hskip] at hscan
      rw [firstClaim_of_skip hskip, firstClaim_of_skip hscan, ih hrules.2]
    · have hne := hclaim.ne_skip
      rw [firstClaim_of_scan rfl hne, firstClaim_of_scan hscan (by simpa using hne)]
      rfl

theorem scanPasses_crlf (hs : s.Offered cs c) (hc : c ≠ '\n') (hr : '\r' ∉ cs ++ [c])
    (passes : Nat) (rules : List Rule) (hrules : Rule.lineEnding ∉ rules) :
    (scanPasses c passes rules s.crlf).1.items =
        (scanPasses c passes rules s).1.items.map Item.crlf ∧
      (scanPasses c passes rules s.crlf).2 = (scanPasses c passes rules s).2.crlf := by
  induction passes generalizing rules s with
  | zero => exact ⟨rfl, rfl⟩
  | succ passes ih =>
    have hfirst := firstClaim_crlf hs hc hr rules hrules
    rcases firstClaim_cases rules hs.last hrules with
      ⟨hnone, -⟩ | ⟨rule, outcome, s', -, hsome, hclaim⟩
    · rw [hnone] at hfirst
      simp [scanPasses, hnone, hfirst]
    · rw [hsome] at hfirst
      have hfound := outcome.found_crlf
      have htoken := outcome.token?_crlf
      simp only [Outcome.found] at hfound
      simp only [scanPasses, hsome, hfirst, Option.map_some, Prod.map_apply, id_eq]
      cases ht : outcome.token? with
      | none =>
        rw [ht, Option.map_none] at htoken
        simp only [htoken]
        exact ⟨hfound, trivial⟩
      | some t =>
        obtain ⟨hcurrent, hk⟩ := hclaim.eq_none_of_token hs ht
        have hagain := hclaim.offeredAgain hs ht
        have hmore := ih hagain.toOffered (rescanRules rule) (lineEnding_not_mem_rescanRules rule)
        rw [← pushAgain_crlf (by simpa using hk) hc] at hmore
        rw [ht, Option.map_some] at htoken
        simp only [htoken, complete_crlf hk, Token.type_crlf]
        split
        · simp [hfound, hmore]
        · simp [hfound]

/-- What follows an open comment does not move it. -/
theorem Settled.comment_crlf (hs : s.Settled cs) (more : List Char) :
    s.comment.map (OpenComment.crlf (s.window.text ++ more)) =
      s.comment.map (OpenComment.crlf s.window.text) := by
  refine Option.map_congr fun k hk => ?_
  obtain ⟨before, inside, slash, star, hcells, -, -, hoffset, -⟩ := hs.coherent.comment k hk
  have hle : k.offset ≤ Text.byteSize s.window.text := by
    rw [Window.text, hcells, Cell.text, List.map_append, Text.byteSize_append, ← hoffset]
    exact Nat.le_add_right ..
  rw [OpenComment.crlf, Text.crlfOffset_append_of_le hle, OpenComment.crlf]

theorem Settled.arrive_crlf (hs : s.Settled cs) (hc : c ≠ '\n') (p : Position) :
    (s.crlf.withPosition p).arrive c = (s.arrive c).crlf := by
  simp [State.arrive, crlf, withPosition, Window.crlf_push _ hc, hs.comment_crlf]

/-- One character that is no line break. -/
theorem Settled.scan_crlf (hs : s.Settled cs) (hc : c ≠ '\n') (hr : '\r' ∉ cs ++ [c])
    (p : Position) :
    ((s.crlf.withPosition p).scan c).1.items = (s.scan c).1.items.map Item.crlf ∧
      ((s.crlf.withPosition p).scan c).2 = (s.scan c).2.crlf := by
  have hpasses := scanPasses_crlf (hs.arrive c) hc hr 7 Rule.order.tail lineEnding_not_mem_tail
  rw [← hs.arrive_crlf hc p] at hpasses
  rw [(scan_eq _ c).1, (scan_eq _ c).2, (scan_eq s c).1, (scan_eq s c).2]
  exact hpasses

/-! ## Line breaks -/

theorem Offered.endsIn_eq_false (hs : s.Offered cs c) (hc : c ≠ '/') :
    s.window.endsIn ['*', '/'] = false := by
  rw [← Bool.not_eq_true, Window.endsIn_iff]
  rintro ⟨front, hfront⟩
  have hlast := congrArg List.getLast? hfront
  rw [Window.getLast?_text, hs.last] at hlast
  exact hc (by simpa using hlast.symm)

end State

section Blank

variable {s s' : State} {cs : List Char} {c : Char} {rule : Rule} {outcome : Outcome}

/-- A blank finishes nothing. It goes on with what is open, or begins indentation. -/
theorem Claim.of_isBlank (h : Claim s c rule outcome s') (hs : s.Offered cs c)
    (hblank : Text.isBlank c = true) :
    outcome = .consumed ∧
      s' = if s.comment = none ∧ s.current = none then (s.beginWhitespace c).2 else s := by
  have hne {d : Char} (hd : Text.isBlank d = false) : c ≠ d := by
    rintro rfl
    simp [hblank] at hd
  cases h with
  | inComment k hk => simp [hk]
  | inWhitespace hk t hcurrent => simp [hcurrent]
  | openWhitespace hk hcurrent hc hwindow w hw =>
    refine ⟨rfl, ?_⟩
    rw [if_pos ⟨hk, hcurrent⟩, State.beginWhitespace]
    rcases hw with ⟨offset, hbreak, rfl⟩ | ⟨hbreak, hstart, rfl⟩
    · simp [hblank, hwindow, hbreak]
    · simp [hblank, hwindow, hbreak, hstart]
  | stripComment k hk hsize hends =>
    rw [hs.endsIn_eq_false (hne (by decide))] at hends
    exact absurd hends (by decide)
  | closeComment k hk hsize hends =>
    rw [hs.endsIn_eq_false (hne (by decide))] at hends
    exact absurd hends (by decide)
  | openComment hk star slash before hrecent hstar =>
    have hlast := hs.last
    simp only [Window.last?, hrecent, List.head?_cons, Option.map_some, hstar,
      Option.some.injEq] at hlast
    exact absurd hlast.symm (hne (by decide))
  | closeAtRule hk t hcurrent hkind hc =>
    rcases hc with rfl | rfl <;> exact absurd hblank (by decide)
  | closeProperty hk hblocks t hcurrent name hkind hc =>
    rcases hc with rfl | rfl <;> exact absurd hblank (by decide)
  | closeWhitespace hk t hcurrent hkind hc => simp [hblank] at hc
  | openAtRule hk hcurrent hc | selector hk hc | openProperty hk hblocks hcurrent hc
  | rejectBlank hk hblocks hcurrent hc | rejectContent hk hblocks hcurrent hc | openBlock hk hc
  | openUnclaimed hk hc | closeBlock hk hcurrent hc | closeBlockAfter hk hcurrent hc
  | strayBrace hk hcurrent hc | strayContent hk hcurrent hc =>
    exact absurd hc (hne (by decide))

theorem State.Settled.scan_of_isBlank (hs : s.Settled cs) (hblank : Text.isBlank c = true) :
    (s.scan c).1.items = [] ∧
      (s.scan c).2 = if s.comment = none ∧ s.current = none then ((s.arrive c).beginWhitespace c).2
        else s.arrive c := by
  have hoffered := hs.arrive c
  rw [(s.scan_eq c).1, (s.scan_eq c).2]
  rcases firstClaim_cases Rule.order.tail hoffered.last State.lineEnding_not_mem_tail with
    ⟨hnone, hall⟩ | ⟨rule, outcome, s', -, hsome, hclaim⟩
  · have hskip := hall .whitespace (by decide)
    refine ⟨by simp [State.scanPasses, hnone], ?_⟩
    simp only [State.scanPasses, hnone]
    split
    · next hidle =>
      have hcomment : (s.arrive c).comment = none := hidle.1
      have hcurrent : (s.arrive c).current = none := hidle.2
      have hbegin : (s.arrive c).beginWhitespace c = (.skip, s.arrive c) := by
        simpa [Rule.scan, hoffered.last, hcomment, State.scanWhitespace, hcurrent] using hskip
      rw [hbegin]
    · rfl
  · obtain ⟨rfl, hs'⟩ := hclaim.of_isBlank hoffered hblank
    simp only [State.scanPasses, hsome, Outcome.token?]
    exact ⟨rfl, hs'⟩

/-! ## Pending blanks -/

/-- Blanks that are pending while nothing is open hold no line feed. -/
def State.Unbroken (s : State) (cells : List Cell) : Prop :=
  s.comment = none → s.current = none → (∀ cell ∈ cells, cell.isVisible = false) →
    ∀ cell ∈ cells, cell.char ≠ '\n'

theorem Claim.unbroken (h : Claim s c rule outcome s') (hs : s.Offered cs c)
    (ht : outcome.token? = none) : s'.Unbroken s'.window.cells := by
  have hempty (s' : State) (hw : s'.window = {}) : s'.Unbroken s'.window.cells := by
    simp [State.Unbroken, hw, Window.cells]
  cases h with
  | inComment k hk =>
    intro hk'
    simp [hk] at hk'
  | stripComment k hk hsize hends hembedded =>
    intro _ hcurrent hblank
    have hinterrupts := hs.coherent.comment k hk
    rw [show s.current = none from hcurrent] at hinterrupts
    obtain ⟨cell, hcell, hvisible⟩ := hinterrupts.exists_visible hs.cells hembedded
    simp [hblank cell hcell] at hvisible
  | openComment => exact fun hk' => absurd hk' (by simp [State.openComment])
  | openAtRule | openProperty | openWhitespace =>
    exact fun _ hcurrent => absurd hcurrent (by simp [State.openToken])
  | inWhitespace hk t hcurrent =>
    intro _ hcurrent'
    simp [hcurrent] at hcurrent'
  | rejectBlank | rejectContent | strayBrace | strayContent | openBlock | openUnclaimed =>
    exact hempty _ rfl
  | _ => simp [Outcome.token?] at ht

/-- A line feed after pending blanks is claimed. -/
theorem State.Offered.unbroken_of_skip (hs : s.Offered cs c) (hbody : s.Unbroken s.window.body)
    (hskip : ∀ rule ∈ Rule.order.tail, rule.scan s = (.skip, s)) :
    s.Unbroken s.window.cells := by
  intro hk hcurrent hblank cell hcell
  rw [hs.cells] at hcell hblank
  rcases List.mem_append.1 hcell with hmem | hmem
  · exact hbody hk hcurrent (fun d hd => hblank d (List.mem_append_left _ hd)) cell hmem
  · rw [List.mem_singleton.1 hmem]
    rintro rfl
    have hwindow : s.window.isBlank = true :=
      hs.window.isBlank_iff.2 (by rw [hs.cells]; simpa [Cell.isVisible] using hblank)
    have hwhitespace := hskip .whitespace (by decide)
    have hfeed : Text.isBlank '\n' = true := by decide
    simp only [Rule.scan, hs.last, hk, scanWhitespace, hcurrent, beginWhitespace, hfeed,
      hwindow] at hwhitespace
    cases hbreak : s.window.lineBreak with
    | none => exact hs.window.noBreak hbreak (by simp [Window.text, hs.cells])
    | some offset => simp [hbreak] at hwhitespace

theorem State.preserves_unbroken (cs : List Char) (c : Char) :
    Preserves c (fun _ s => s.Offered cs c ∧ s.Unbroken s.window.body)
      (fun _ s => s.OfferedAgain cs c ∧ Text.isBlank c = false)
      (fun _ s => s.Unbroken s.window.cells) where
  last h := h.1.last
  first_of_again h := ⟨h.1.toOffered, by simp [Unbroken, h.1.body_eq_nil]⟩
  done_of_again {_ s} h := by
    intro _ _ hblank
    have hvisible := hblank ⟨c, s.position⟩ (by rw [h.1.cells]; simp)
    simp [Cell.isVisible, h.2] at hvisible
  done_of_skip h hskip := h.1.unbroken_of_skip h.2 hskip
  done_of_claim h hclaim ht := hclaim.unbroken h.1 ht
  done_of_token _ _ _ _ := by simp [Unbroken, Window.cells]
  again_of_token h hclaim ht hcontinues :=
    ⟨hclaim.offeredAgain h.1 ht, hclaim.isBlank_eq_false ht hcontinues⟩

theorem State.unbroken_after (cs : List Char) :
    (State.after {} cs).Unbroken (State.after {} cs).window.cells := by
  induction cs using List.reverseRecOn with
  | nil => simp [Unbroken, Window.cells]
  | append_singleton cs c ih =>
    rw [after_concat]
    exact (preserves_unbroken cs c).scan [] ⟨(settled_after cs).arrive c, ih⟩

end Blank

/-! ## Whole runs -/

namespace State

variable {s : State} {cs : List Char}

/-- Indentation begins with the window, wherever the last character stands. -/
theorem beginWhitespace_position (hw : s.window.Sound) (p : Position) (c : Char) :
    ((s.withPosition p).beginWhitespace c).2 = (s.beginWhitespace c).2.withPosition p := by
  unfold beginWhitespace withPosition
  dsimp only
  split
  · rfl
  · cases hbreak : s.window.lineBreak with
    | none =>
      dsimp only
      split
      · next hstart => simp [openToken, hstart]
      · rfl
    | some offset =>
      obtain ⟨front, -, hne⟩ := hw.exists_dropBefore hbreak
      have hstart : (s.window.dropBefore offset).start? =
          some ((s.window.dropBefore offset).cells.head hne).position := by
        rw [Window.start?, ← List.head?_reverse, ← Window.cells, List.head?_eq_some_head hne]
        rfl
      simp [openToken, hstart]

/-- The two characters of a line break move as far as a line feed. -/
theorem Settled.arrive_pair (hs : s.Settled cs) (p : Position) :
    ((s.crlf.withPosition p).arrive '\r').arrive '\n' =
      (s.arrive '\n').crlf.withPosition s.next.nextColumn := by
  simp only [State.arrive, crlf, withPosition, Window.crlf_push_lineFeed, Window.text_push,
    hs.comment_crlf]
  rfl

/-- A blank that is no line feed and does not begin the source changes the window only. -/
theorem scan_of_isBlank_of_ne (hcs : cs ≠ []) {c : Char} (hblank : Text.isBlank c = true)
    (hc : c ≠ '\n') :
    ((State.after {} cs).scan c).1.items = [] ∧
      ((State.after {} cs).scan c).2 = (State.after {} cs).arrive c := by
  have hs := (settled_after cs).arrive c
  obtain ⟨hitems, hscan⟩ := (settled_after cs).scan_of_isBlank hblank
  refine ⟨hitems, hscan.trans ?_⟩
  split
  · next hidle =>
    cases hwindow : ((State.after {} cs).arrive c).window.isBlank with
    | false => simp [beginWhitespace, hwindow]
    | true =>
      have hstart := start?_arrive_ne hcs c hidle.2 hwindow
      have hvisible := hs.window.isBlank_iff.1 hwindow
      rw [hs.cells] at hvisible
      have hunbroken := unbroken_after cs hidle.1 hidle.2 fun cell hcell => by
        simp [Cell.isVisible, hvisible cell (List.mem_append_left _ hcell)]
      have hbreak : ((State.after {} cs).arrive c).window.lineBreak = none := by
        cases hbreak : ((State.after {} cs).arrive c).window.lineBreak with
        | none => rfl
        | some offset =>
          have hmem := hs.window.mem_text hbreak
          simp only [Window.text, hs.cells, Cell.text, List.map_append, List.mem_append,
            List.mem_map, List.map_cons, List.map_nil, List.mem_singleton] at hmem
          rcases hmem with ⟨cell, hcell, hchar⟩ | hfeed
          · exact absurd hchar (hunbroken cell hcell)
          · exact absurd hfeed.symm hc
      simp [beginWhitespace, hbreak, hstart]
  · rfl

/-- A line feed in one run and its two characters in the other. -/
theorem scan_lineBreak (hr : '\r' ∉ cs) {p : Position}
    (hs' : State.after {} (Text.crlf cs) = (State.after {} cs).crlf.withPosition p) :
    (∃ q, State.after {} (Text.crlf cs ++ ['\r', '\n']) =
      (State.after {} (cs ++ ['\n'])).crlf.withPosition q) ∧
    itemsOf (State.after {} (Text.crlf cs)) ['\r', '\n'] = [] ∧
    ((State.after {} cs).scan '\n').1.items = [] := by
  by_cases hcs : cs = []
  · subst hcs
    exact ⟨⟨⟨1, 2⟩, by decide⟩, by decide, by decide⟩
  have hne : Text.crlf cs ≠ [] := by simpa using hcs
  have hs := settled_after cs
  obtain ⟨hreturn, hreturned⟩ := scan_of_isBlank_of_ne hne (c := '\r') (by decide) (by decide)
  obtain ⟨hfeed, hfed⟩ := hs.scan_of_isBlank (c := '\n') (by decide)
  have hpair := (settled_after (Text.crlf cs ++ ['\r'])).scan_of_isBlank (c := '\n') (by decide)
  rw [after_concat, hreturned, hs', hs.arrive_pair] at hpair
  obtain ⟨hitems, hstate⟩ := hpair
  refine ⟨⟨(State.after {} cs).next.nextColumn, ?_⟩, ?_, hfeed⟩
  · have hiff : (((State.after {} cs).crlf.withPosition p).arrive '\r').comment = none ∧
        (((State.after {} cs).crlf.withPosition p).arrive '\r').current = none ↔
        (State.after {} cs).comment = none ∧ (State.after {} cs).current = none := by
      simp [arrive, crlf, withPosition]
    have hoffered := hs.arrive '\n'
    have hbegin (hk : (State.after {} cs).comment = none) :=
      beginWhitespace_crlf (s := (State.after {} cs).arrive '\n') hk hoffered.window
        (hoffered.not_mem_text (by simpa using hr)) '\n'
    rw [after_append, after_cons, after_cons, after_nil, hreturned, hs', hstate, after_concat, hfed]
    simp only [hiff]
    split
    · next hidle =>
      rw [beginWhitespace_position (Window.sound_crlf _), hbegin hidle.1]
      rfl
    · rfl
  · rw [itemsOf_cons, itemsOf_cons, hreturn, hreturned, hs', hitems]
    rfl

/-- The state after a text without carriage returns, in both spellings, and what it brought. -/
theorem after_crlf (hr : '\r' ∉ cs) :
    (∃ p, State.after {} (Text.crlf cs) = (State.after {} cs).crlf.withPosition p) ∧
      itemsOf {} (Text.crlf cs) = (itemsOf {} cs).map Item.crlf := by
  induction cs using List.reverseRecOn with
  | nil => exact ⟨⟨.start, rfl⟩, rfl⟩
  | append_singleton cs c ih =>
    have hr' : '\r' ∉ cs := fun hmem => hr (List.mem_append_left _ hmem)
    obtain ⟨⟨p, hs'⟩, hitems⟩ := ih hr'
    by_cases hc : c = '\n'
    · subst hc
      obtain ⟨hstate, hpair, hfeed⟩ := scan_lineBreak hr' hs'
      rw [Text.crlf_append, Text.crlf_lineFeed, Text.crlf_nil, itemsOf_append, itemsOf_concat,
        hpair, hfeed, hitems]
      exact ⟨hstate, by simp⟩
    · obtain ⟨hfound, hstate⟩ := (settled_after cs).scan_crlf hc hr p
      rw [Text.crlf_concat_of_ne cs hc, after_concat, after_concat, itemsOf_concat, itemsOf_concat,
        hs', hfound, hitems, List.map_append]
      exact ⟨⟨_, hstate⟩, rfl⟩

/-! ## The end of the source -/

theorem accept_withPosition (s : State) (p : Position) (t : Token) :
    (s.withPosition p).accept t = ((s.accept t).1, (s.accept t).2.withPosition p) := by
  cases hblocks : s.blocks <;> simp [accept, hblocks, acceptTopLevel, withPosition]

theorem finishComment_withPosition (s : State) (p : Position) :
    (s.withPosition p).finishComment = (s.finishComment.1, s.finishComment.2.withPosition p) := by
  cases hk : s.comment with
  | none => simp [finishComment, hk, withPosition]
  | some k =>
    have haccept := accept_withPosition { s with comment := none } p
    simp only [withPosition] at haccept
    cases hembedded : k.embedded <;>
      simp [finishComment, hk, hembedded, haccept, withPosition, unclosed, clearWindow]

theorem finishCurrent_withPosition (s : State) (p : Position) :
    (s.withPosition p).finishCurrent = (s.finishCurrent.1, s.finishCurrent.2.withPosition p) := by
  cases hcurrent : s.current with
  | none => simp [finishCurrent, closeCurrent?, hcurrent, withPosition]
  | some t =>
    have haccept := accept_withPosition { s with current := none } p
    simp only [withPosition] at haccept
    simp [finishCurrent, closeCurrent?, hcurrent, haccept, withPosition, unclosed, clearWindow]

/-- The end of the source does not look at the last character. -/
theorem items_finish_withPosition (s : State) (p : Position) :
    (s.withPosition p).finish.items = s.finish.items := by
  simp only [finish, finishComment_withPosition, finishCurrent_withPosition]
  rfl

theorem Settled.finishComment_crlf (hs : s.Settled cs) :
    s.crlf.finishComment = (s.finishComment.1.map Item.crlf, s.finishComment.2.crlf) := by
  cases hk : s.comment with
  | none =>
    have hk' : s.crlf.comment = none := by simp [crlf, hk]
    simp [State.finishComment, hk, hk']
  | some k =>
    obtain ⟨before, inside, slash, star, hcells, hslash, hstar, hoffset, -⟩ :=
      hs.coherent.comment k hk
    have hk' : s.crlf.comment = some (k.crlf s.window.text) := by simp [crlf, hk]
    have htext : s.window.text = Cell.text before ++ ['/', '*'] ++ Cell.text inside ++ [] := by
      simp [Window.text, hcells, hslash, hstar]
    have hclean : Payload.cleanComment ((Text.slice? ((k.crlf s.window.text).offset + 2)
        s.crlf.window.bytes s.crlf.window.text).getD []) = Payload.cleanComment
          ((Text.slice? (k.offset + 2) s.window.bytes s.window.text).getD []) :=
      Window.cleanComment_crlf hs.window htext (by simp) hoffset
    have hnone : { s.crlf with comment := none } = { s with comment := none }.crlf := rfl
    have hembedded : (k.crlf s.window.text).embedded = k.embedded := rfl
    have htruncate : s.crlf.window.truncate (k.crlf s.window.text).offset =
        (s.window.truncate k.offset).crlf := Window.truncate_crlf _ _
    simp only [State.finishComment, hk, hk', hclean, hnone, hembedded]
    generalize Payload.cleanComment ((Text.slice? (k.offset + 2) s.window.bytes
      s.window.text).getD []) = text
    split
    · simp only [crlf] at htruncate ⊢
      rw [htruncate]
      rfl
    · have haccept := accept_crlf { s with comment := none } (k.close text s.next)
      have hclose : (k.close text s.next).crlf =
          (k.crlf s.window.text).close text s.crlf.next := rfl
      rw [hclose] at haccept
      simp only [haccept, List.map_cons]
      rw [crlf_clearWindow (by simp)]
      rfl

theorem finalContent_crlf (kind : OpenKind) (text : List Char) :
    finalContent kind (Text.crlf text) = (finalContent kind text).crlf := by
  cases kind with
  | property name => simp [finalContent, Leaf.crlf, Payload.declarationValue?_crlf]
  | atRule => simp [finalContent, Leaf.crlf, Payload.splitAtRule_crlf]
  | whitespace => simp [finalContent, Leaf.crlf]

theorem closeCurrent?_crlf (s : State) :
    s.crlf.closeCurrent? = s.closeCurrent?.map (Prod.map Token.crlf State.crlf) := by
  have htext : s.crlf.window.text = Text.crlf s.window.text := Window.text_crlf _
  cases hcurrent : s.current with
  | none =>
    have hcurrent' : s.crlf.current = none := hcurrent
    simp [closeCurrent?, hcurrent, hcurrent']
  | some t =>
    have hcurrent' : s.crlf.current = some t := hcurrent
    simp only [closeCurrent?, hcurrent, hcurrent', htext, finalContent_crlf, Option.map_some]
    rfl

theorem finishCurrent_crlf (hk : s.comment = none) :
    s.crlf.finishCurrent = (s.finishCurrent.1.map Item.crlf, s.finishCurrent.2.crlf) := by
  have hclose := closeCurrent?_crlf s
  cases h : s.closeCurrent? with
  | none => simp [finishCurrent, hclose, h]
  | some closed =>
    obtain ⟨t, s'⟩ := closed
    have hk' : (s'.accept t).2.comment = none := by
      obtain ⟨opened, -, hopened⟩ := Option.map_eq_some_iff.1 h
      rw [comment_accept, ← (Prod.mk.inj hopened).2]
      exact hk
    simp only [finishCurrent, hclose, h, Option.map_some, Prod.map_apply, accept_crlf,
      Token.type_crlf, Token.start_crlf, List.map_append, crlf_clearWindow hk']
    split <;> rfl

theorem leftover_crlf (s : State) : s.crlf.leftover = s.leftover.map Item.crlf := by
  have hcells : s.crlf.window.cells = Cell.crlf s.window.cells := Window.cells_crlf _
  have htext : s.crlf.window.text = Text.crlf s.window.text := Window.text_crlf _
  unfold leftover
  rw [hcells, htext, Cell.span?_crlf, Text.trim_crlf, ← Text.withCrlf_ofList]
  split <;> rfl

theorem finishBlock_crlf (stop : Position) (last : Option TokenId) (b : OpenBlock)
    (around : List OpenBlock) :
    (finishBlock stop last b.crlf (around.map OpenBlock.crlf)).items =
      (finishBlock stop last b around).items.map Item.crlf := by
  induction around generalizing b with
  | nil => simp [finishBlock, Item.crlf, Finding.crlf_spanning, Issue.mapText]
  | cons outer rest ih =>
    have hrest := ih (outer.add (b.close stop))
    rw [OpenBlock.crlf_add, OpenBlock.crlf_close] at hrest
    simp [finishBlock, hrest, Item.crlf, Finding.crlf_spanning, Issue.mapText]

theorem finishBlocks_crlf (s : State) :
    s.crlf.finishBlocks.items = s.finishBlocks.items.map Item.crlf := by
  cases hblocks : s.blocks with
  | nil => simp [finishBlocks, crlf, hblocks]
  | cons b around =>
    have h := finishBlock_crlf s.next s.lastTopLevel b around
    simpa [finishBlocks, crlf, hblocks] using h

theorem Settled.finish_crlf (hs : s.Settled cs) :
    s.crlf.finish.items = s.finish.items.map Item.crlf := by
  obtain ⟨-, hk⟩ := hs.finishComment
  simp only [State.finish, hs.finishComment_crlf, finishCurrent_crlf hk, finishBlocks_crlf,
    leftover_crlf, List.map_append]

end State

/-- The items of a text without carriage returns, in both spellings. -/
theorem scanText_crlf {cs : List Char} (hr : '\r' ∉ cs) :
    scanText (Text.crlf cs) = (scanText cs).map Item.crlf := by
  obtain ⟨⟨p, hs'⟩, hitems⟩ := State.after_crlf hr
  rw [scanText, hitems, hs', State.items_finish_withPosition,
    (State.settled_after cs).finish_crlf, ← List.map_append, scanText]

end Stylesheet.Scan
