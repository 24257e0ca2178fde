import Stylesheet.Proofs.Scan.Following
import Stylesheet.Proofs.Scan.Growth
import Stylesheet.Proofs.Scan.Reading
import Stylesheet.Proofs.Source

set_option autoImplicit false

/-! # A text in the block of a rule

A text without structural findings is the same in the block of a rule as it is alone: the block
holds its outermost tokens, moved to their place in the source. The run in the block follows the run
over the text alone (`Follows`); as that one reports nothing, it ends with nothing open and nothing
pending (`State.Settled.atRest`), and then a brace closes the block. -/

namespace Stylesheet

namespace Scan

namespace State

variable {s : State} {cs : List Char}

/-! ## Ending without a finding -/

theorem blocks_eq_nil_of_finishBlocks (h : findingsOf s.finishBlocks.items = []) :
    s.blocks = [] := by
  cases hb : s.blocks with
  | nil => rfl
  | cons b around => cases around <;> simp [finishBlocks, hb, finishBlock] at h

theorem span_eq_none_of_leftover (h : findingsOf s.leftover = []) :
    Cell.span? s.window.cells = none := by
  cases hspan : Cell.span? s.window.cells with
  | none => rfl
  | some span => simp [leftover, hspan] at h

theorem comment_eq_none_of_finishComment (h : findingsOf s.finishComment.1 = []) :
    s.comment = none := by
  cases hk : s.comment with
  | none => rfl
  | some k => by_cases hembedded : k.embedded = true <;>
      simp [finishComment, hk, hembedded, unclosed] at h

theorem kind_eq_whitespace_of_finishCurrent (h : findingsOf s.finishCurrent.1 = []) {o : OpenToken}
    (ho : s.current = some o) : o.kind = .whitespace := by
  cases hk : o.kind with
  | whitespace => rfl
  | atRule | property =>
    simp [finishCurrent, closeCurrent?, ho, hk, finalContent, OpenToken.close, unclosed,
      Leaf.type] at h

/-- The indentation that is open in the state, closed at the end of the source. -/
def lastIndentation (s : State) : List Token :=
  (s.current.map fun o => o.close (.whitespace (String.ofList s.window.text)) s.next).toList

/-- Outside all blocks nothing is open but indentation, and nothing visible is pending. -/
structure AtRest (s : State) : Prop where
  comment : s.comment = none
  blocks : s.blocks = []
  current : ∀ o, s.current = some o → o.kind = .whitespace
  blank : Cell.span? s.window.cells = none

/-- A run that reports nothing at the end of the source is at rest there. -/
theorem Settled.atRest (hs : s.Settled cs) (h : findingsOf s.finish.items = []) :
    s.AtRest := by
  simp only [State.finish, findingsOf_append, List.append_eq_nil_iff] at h
  obtain ⟨⟨⟨hk, hcurrent⟩, hblocks⟩, hleftover⟩ := h
  have hcomment := comment_eq_none_of_finishComment hk
  have hfinish : s.finishComment = ([], s) := by simp [State.finishComment, hcomment]
  rw [hfinish] at hcurrent hblocks hleftover
  have hkind := fun o ho => kind_eq_whitespace_of_finishCurrent (o := o) hcurrent ho
  cases ho : s.current with
  | none =>
    have hnone : s.finishCurrent = ([], s) := by simp [finishCurrent, closeCurrent?, ho]
    rw [hnone] at hblocks hleftover
    exact ⟨hcomment, blocks_eq_nil_of_finishBlocks hblocks, by simp [ho],
      span_eq_none_of_leftover hleftover⟩
  | some o =>
    refine ⟨hcomment, ?_, hkind, ?_⟩
    · -- in a block, the indentation would have become its last child
      have hnil := blocks_eq_nil_of_finishBlocks hblocks
      cases hb : s.blocks with
      | nil => rfl
      | cons b around => simp [finishCurrent, closeCurrent?, ho, accept, hb, clearWindow] at hnil
    · exact Cell.span?_eq_none_iff.2 ((OpenToken.begins_whitespace_iff (hkind o ho)).1
        (hs.coherent.current hcomment o ho)).1

/-- At rest, the end of the source only closes indentation. -/
theorem AtRest.finish_items (h : s.AtRest) :
    s.finish.items = s.lastIndentation.map fun t => .token (t.linkedAfter s.lastTopLevel) := by
  have hfinish : s.finishComment = ([], s) := by simp [State.finishComment, h.comment]
  cases ho : s.current with
  | none =>
    have hnone : s.finishCurrent = ([], s) := by simp [finishCurrent, closeCurrent?, ho]
    simp [State.finish, hfinish, hnone, finishBlocks, h.blocks, leftover, h.blank, lastIndentation,
      ho]
  | some o =>
    have hsome : s.finishCurrent =
        ([.token ((o.close (.whitespace (String.ofList s.window.text)) s.next).linkedAfter
          s.lastTopLevel)],
          { s with current := none, lastTopLevel := some o.id, window := {} }) := by
      simp [finishCurrent, closeCurrent?, ho, h.current o ho, finalContent, OpenToken.close,
        Leaf.type, accept, h.blocks, acceptTopLevel, clearWindow]
    have hempty : Cell.span? [] = none := rfl
    simp [State.finish, hfinish, hsome, finishBlocks, h.blocks, leftover, hempty, lastIndentation,
      ho]

/-! ## The brace of the block -/

section Brace

variable {b : OpenBlock}

/-- Blanks do not end inside a string. -/
theorem insideString_of_span_eq_none (hblank : Cell.span? s.window.body = none) :
    Text.insideString s.bodyText = false := by
  refine Text.insideString_of_isQuote fun c hc => ?_
  obtain ⟨cell, hcell, rfl⟩ := List.mem_map.1 hc
  have hvisible := Cell.span?_eq_none_iff.1 hblank cell hcell
  by_contra hquote
  rw [Bool.not_eq_false, Text.isQuote, Bool.or_eq_true, beq_iff_eq, beq_iff_eq] at hquote
  rcases hquote with hquote | hquote
  · rw [Cell.isVisible, hquote] at hvisible
    exact absurd hvisible (by decide)
  · rw [Cell.isVisible, hquote] at hvisible
    exact absurd hvisible (by decide)

/-- With nothing open but indentation, a closing brace ends that, and else the block. -/
theorem rule_eq_of_brace {rule : Rule} {outcome : Outcome} {s' : State}
    (h : Claim s '}' rule outcome s') (hs : s.Offered cs '}') (hcomment : s.comment = none)
    (hcurrent : ∀ o, s.current = some o → o.kind = .whitespace) :
    rule = if s.current.isSome then .whitespace else .block := by
  cases h with
  | inComment k hk | stripComment k hk | closeComment k hk => simp [hcomment] at hk
  | openComment hk star slash before hrecent hstar =>
    have hlast := hs.last
    simp [Window.last?, hrecent, hstar] at hlast
  | closeAtRule hk o ho hkind => simp [hcurrent o ho] at hkind
  | closeProperty hk _ o ho name hkind => simp [hcurrent o ho] at hkind
  | openAtRule hk _ hc | selector hk hc | openProperty hk _ _ hc | rejectBlank hk _ _ hc
  | rejectContent hk _ _ hc | openBlock hk hc | openUnclaimed hk hc => simp at hc
  | closeBlock hk hnone | closeBlockAfter hk hnone | strayBrace hk hnone | strayContent hk hnone =>
    simp [hnone]
  | openWhitespace hk _ hc => exact absurd hc (by decide)
  | inWhitespace hk o ho | closeWhitespace hk o ho => simp [ho]

/-- A closing brace after blanks closes the only block, and then nothing is left to be closed. -/
theorem scanPasses_brace (hs : s.Offered cs '}') (hcomment : s.comment = none)
    (hcurrent : s.current = none) (hblank : Cell.span? s.window.body = none)
    (hblocks : s.blocks = [b]) (passes : Nat) {rules : List Rule}
    (hrules : Rule.lineEnding ∉ rules) (hmem : Rule.block ∈ rules) :
    (scanPasses '}' (passes + 1) rules s).1.items =
        [.token ((b.close s.next).linkedAfter s.lastTopLevel)] ∧
      (scanPasses '}' (passes + 1) rules s).2.finish.items = [] := by
  have hscan : Rule.block.scan s = (.token (b.close s.next), { s with blocks := [] }) := by
    simp [Rule.scan, hs.last, hcomment, scanBlock, currentType, hcurrent, State.closeBlock,
      insideString_of_span_eq_none hblank, hblank, hblocks]
  have hfirst := firstClaim_eq_of_unique hs.last hrules hmem hscan (by simp) fun hclaim => by
    simpa [hcurrent] using rule_eq_of_brace hclaim hs hcomment (by simp [hcurrent])
  have hrest : ({ s with blocks := [] }.complete (b.close s.next)).2.AtRest :=
    ⟨by simp [hcomment], rfl, by simp [hcurrent], rfl⟩
  have hfinish := hrest.finish_items
  constructor
  · simp [scanPasses, hfirst, Outcome.token?, Outcome.finding?, OpenBlock.close, complete, accept,
      recordCompleted, acceptTopLevel]
  · simpa [scanPasses, hfirst, Outcome.token?, OpenBlock.close, lastIndentation, hcurrent]
      using hfinish

/-- Indentation before the brace that closes a block becomes its last child. -/
theorem scanPasses_brace_of_indentation (hs : s.Offered cs '}') (hcomment : s.comment = none)
    {o : OpenToken} (ho : s.current = some o) (hkind : o.kind = .whitespace)
    (hblocks : s.blocks = [b]) :
    (scanPasses '}' 7 Rule.order.tail s).1.items =
        [.token (((b.add (o.close (.whitespace (String.ofList s.bodyText)) s.position)).close
          s.next).linkedAfter s.lastTopLevel)] ∧
      (scanPasses '}' 7 Rule.order.tail s).2.finish.items = [] := by
  have hvisible : Text.isBlank '}' = false := by decide
  have hscan : Rule.whitespace.scan s =
      (.token (o.close (.whitespace (String.ofList s.bodyText)) s.position),
        { s with current := none }) := by
    simp [Rule.scan, hs.last, hcomment, scanWhitespace, ho, hkind, hvisible]
  have hclaim : Claim s '}' .whitespace
      (.token (o.close (.whitespace (String.ofList s.bodyText)) s.position))
      { s with current := none } := .closeWhitespace hcomment o ho hkind hvisible
  have hfirst := firstClaim_eq_of_unique hs.last lineEnding_not_mem_tail (by decide) hscan (by simp)
    fun hclaim => by simpa [ho] using rule_eq_of_brace hclaim hs hcomment (by simp [ho, hkind])
  have hagain := hclaim.offeredAgain hs rfl
  have hcomplete (u : Token) : { s with current := none }.complete u =
      ([], { s with
        current := none
        completed := some ⟨u.id, u.type, u.start, s.position⟩
        blocks := [b.add u]
        window := {} }) := by
    simp [complete, accept, recordCompleted, hblocks, clearWindow]
  have hbrace := scanPasses_brace (b := b.add _) hagain.toOffered hagain.comment_eq_none
    hagain.current_eq_none (by rw [hagain.body_eq_nil]; rfl)
    (by simp only [pushAgain, hcomplete]; rfl) 5 (lineEnding_not_mem_rescanRules .whitespace)
    (by decide)
  obtain ⟨hitems, hstate⟩ := scanPasses_of_handoff (c := '}') 6 hfirst rfl
    (by simp [OpenToken.close, Leaf.type])
  rw [hitems, hstate]
  simpa [hcomplete, pushAgain, Outcome.found, Outcome.finding?] using hbrace

end Brace

end State

/-! ## The end of the text -/

section End

variable {origin : Position} {frame : TokenId × Position} {items items' : List Item}
  {cs ds : List Char}

theorem eq_nil_of_tokensOf_findingsOf {items : List Item} (htokens : tokensOf items = [])
    (hfindings : findingsOf items = []) : items = [] := by
  cases items with
  | nil => rfl
  | cons item items => cases item <;> simp at htokens hfindings

theorem State.Beside.span_eq_none {base : List OpenBlock} {s t : State}
    (h : s.Beside (.moved origin) base t) (hblank : Cell.span? s.window.cells = none) :
    Cell.span? t.window.cells = none := by
  rcases Cell.span?_of_like h.window.cells with ⟨-, hnone⟩ | ⟨_, _, _, _, hsome, -⟩
  · exact hnone
  · simp [hblank] at hsome

/-- A declaration that only the second run has opened is reported by the first at the end. -/
theorem Ahead.finish {frames : List (TokenId × Position)}
    (h : Ahead origin frames items items' (State.after {} cs) (State.after {} ds)) :
    findingsOf (State.after {} cs).finish.items ≠ [] := by
  intro hnone
  obtain ⟨base, -, -, hbeside, -, -, o, name, ho, hkind⟩ := h
  have hrest := (State.settled_after cs).atRest hnone
  have hbegins := (State.settled_after ds).coherent.current
    (eq_none_of_rel hbeside.comment hrest.comment) o ho
  obtain ⟨stop, hspan⟩ := hbegins.span (by simp [hkind])
  simp [hbeside.span_eq_none hrest.blank] at hspan

/-- When the first run reports nothing, a brace closes the block around the second, and this holds
what the first has put out. -/
theorem Matched.brace
    (h : Matched (.moved origin) [frame] items items' (State.after {} cs) (State.after {} ds))
    (hfindings : findingsOf (items ++ (State.after {} cs).finish.items) = []) :
    ∃ b : OpenBlock, OpenBlock.frame b = frame ∧ items' = [] ∧
      List.Forall₂ (Token.Like (.moved origin))
        (tokensOf (items ++ (State.after {} cs).finish.items)) b.children ∧
      ((State.after {} ds).scan '}').1.items =
        [.token ((b.close ((State.after {} ds).next.advance '}')).linkedAfter
          (State.after {} ds).lastTopLevel)] ∧
      ((State.after {} ds).scan '}').2.finish.items = [] := by
  obtain ⟨base, hframes, hsent, hlike⟩ := h
  obtain ⟨b, rfl, rfl⟩ : ∃ b, base = [b] ∧ OpenBlock.frame b = frame := by
    obtain ⟨b, rest, rfl, hframe, hrest⟩ := List.map_eq_cons_iff.1 hframes
    exact ⟨b, by rw [List.map_eq_nil_iff.1 hrest], hframe⟩
  obtain ⟨htokens, hnone, hfound⟩ := hsent
  rw [findingsOf_append, List.append_eq_nil_iff] at hfindings
  have hitems : items' = [] := by
    rw [hfindings.1] at hfound
    exact eq_nil_of_tokensOf_findingsOf hnone (List.forall₂_nil_left_iff.1 hfound)
  have hrest := (State.settled_after cs).atRest hfindings.2
  have hoffered := (State.settled_after ds).arrive '}'
  have hcomment : (State.after {} ds).comment = none := eq_none_of_rel hlike.comment hrest.comment
  have hblocks : (State.after {} ds).blocks = [b] := by
    obtain ⟨inner, hblocks, hinner⟩ := hlike.blocks
    rw [hrest.blocks] at hinner
    rw [hblocks, List.forall₂_nil_left_iff.1 hinner, List.nil_append]
  rw [(State.scan_eq _ '}').1, (State.scan_eq _ '}').2, hrest.finish_items]
  rcases eq_none_or_some_of_rel hlike.current with ⟨ho, ho'⟩ | ⟨o, o', ho, ho', hoo⟩
  · obtain ⟨hscan, hfinish⟩ := State.scanPasses_brace hoffered hcomment ho'
      (hlike.toBeside.span_eq_none hrest.blank) hblocks 6 State.lineEnding_not_mem_tail (by decide)
    refine ⟨b, rfl, hitems, ?_, hscan, hfinish⟩
    simpa [State.lastIndentation, ho] using htokens
  · -- the end of the source closes the indentation for the first run, the brace for the second
    obtain ⟨hscan, hfinish⟩ := State.scanPasses_brace_of_indentation hoffered hcomment ho'
      (hoo.kind_eq ▸ hrest.current o ho) hblocks
    refine ⟨b.add _, rfl, hitems, ?_, hscan, hfinish⟩
    have hcontent : (Leaf.whitespace (String.ofList (State.after {} cs).window.text)).type ≠
        .selector := by simp [Leaf.type]
    have hclose := hoo.close hcontent hlike.next
    have htext : ((State.after {} ds).arrive '}').bodyText = (State.after {} cs).window.text :=
      hlike.window.text_eq.symm
    have hposition : ((State.after {} ds).arrive '}').position = (State.after {} ds).next := rfl
    rw [htext, hposition]
    simpa [State.lastIndentation, ho] using
      rel_concat htokens (hclose.linkedAfter_childOf _ _ _)

end End

/-! ## The whole source -/

/-- The text begins with no blank, or with a line break. -/
def StartsPlain (cs : List Char) : Prop :=
  ∀ c, cs.head? = some c → Text.isBlank c = true → ['\n'] <+: cs ∨ ['\r', '\n'] <+: cs

/-- The block of a rule is open, and nothing has been read in it. -/
theorem matched_start : Matched (.moved ⟨1, 3⟩) [(1, ⟨1, 2⟩)] [] [] {}
    (State.after {} ['x', '{']) := by
  have hstate : State.after {} ['x', '{'] =
      { position := ⟨1, 2⟩
        next := ⟨1, 3⟩
        blocks := [⟨1, ⟨1, 2⟩, ⟨1, 1⟩, []⟩]
        completed := some ⟨0, .selector, ⟨1, 1⟩, ⟨1, 2⟩⟩
        lastTopLevel := some 0
        nextId := 2 } := by decide +kernel
  rw [hstate]
  exact ⟨[⟨1, ⟨1, 2⟩, ⟨1, 1⟩, []⟩], rfl, ⟨.nil, rfl, .nil⟩,
    ⟨⟨⟨⟨by decide, by decide⟩, rfl⟩, Window.like_empty, .none, ⟨[], rfl, .nil⟩, trivial⟩, .none⟩⟩

/-- A line break of two characters is indentation from its first character on at the beginning of a
source, and from its second on in a block. -/
theorem matched_carriageReturn : Matched (.moved ⟨1, 3⟩) [(1, ⟨1, 2⟩)]
    (State.itemsOf {} ['\r', '\n']) ((State.after {} ['x', '{']).itemsOf ['\r', '\n'])
    (State.after {} ['\r', '\n']) (State.after {} ['x', '{', '\r', '\n']) := by
  have hitems : State.itemsOf {} ['\r', '\n'] = [] := by decide +kernel
  have hitems' : (State.after {} ['x', '{']).itemsOf ['\r', '\n'] = [] := by decide +kernel
  have hstate : State.after {} ['\r', '\n'] =
      { window := .ofCells [⟨'\r', ⟨1, 1⟩⟩, ⟨'\n', ⟨1, 2⟩⟩]
        position := ⟨1, 2⟩
        next := ⟨2, 1⟩
        current := some ⟨0, .whitespace, ⟨1, 1⟩⟩
        nextId := 1 } := by decide +kernel
  have hstate' : State.after {} ['x', '{', '\r', '\n'] =
      { window := .ofCells [⟨'\r', ⟨1, 3⟩⟩, ⟨'\n', ⟨1, 4⟩⟩]
        position := ⟨1, 4⟩
        next := ⟨2, 1⟩
        current := some ⟨2, .whitespace, ⟨1, 3⟩⟩
        blocks := [⟨1, ⟨1, 2⟩, ⟨1, 1⟩, []⟩]
        completed := some ⟨0, .selector, ⟨1, 1⟩, ⟨1, 2⟩⟩
        lastTopLevel := some 0
        nextId := 3 } := by decide +kernel
  have hcounted (line column : Nat) : Position.Counted ⟨line + 1, column + 1⟩ :=
    ⟨Nat.le_add_left _ _, Nat.le_add_left _ _⟩
  rw [hitems, hitems', hstate, hstate']
  refine ⟨[⟨1, ⟨1, 2⟩, ⟨1, 1⟩, []⟩], rfl, ⟨.nil, rfl, .nil⟩, ⟨⟨hcounted 1 0, rfl⟩, ?_, .none,
    ⟨[], rfl, .nil⟩, trivial⟩, .some ⟨trivial, rfl, hcounted 0 0, rfl⟩⟩
  exact Window.like_ofCells
    (.cons ⟨rfl, hcounted 0 0, rfl⟩ (.cons ⟨rfl, hcounted 0 1, rfl⟩ .nil))

/-- The run in the block of a rule follows that over the text alone. -/
theorem follows_start {cs : List Char} (hfirst : StartsPlain cs) :
    Follows ⟨1, 3⟩ [(1, ⟨1, 2⟩)] (State.itemsOf {} cs) ((State.after {} ['x', '{']).itemsOf cs)
      (State.after {} cs) (State.after {} (['x', '{'] ++ cs)) := by
  have hstart : Follows ⟨1, 3⟩ [(1, ⟨1, 2⟩)] [] []
      (State.after {} []) (State.after {} ['x', '{']) := Or.inr (Or.inl matched_start)
  cases cs with
  | nil => exact hstart
  | cons c rest =>
    have hrun (hsame : ((State.after {} []).arrive c).SameStart
        ((State.after {} ['x', '{']).arrive c)) :
        Follows ⟨1, 3⟩ [(1, ⟨1, 2⟩)] (State.itemsOf {} (c :: rest))
          ((State.after {} ['x', '{']).itemsOf (c :: rest)) (State.after {} (c :: rest))
          (State.after {} (['x', '{'] ++ c :: rest)) := by
      have hone := hstart.scan (Or.inr hsame)
      rw [← State.after_concat, ← State.after_concat] at hone
      have hall := hone.after (by simp) (by simp) rest
      simpa [State.after_append] using hall
    -- blanks at the beginning of a source are indentation, and in a block only after a line break
    by_cases hblank : Text.isBlank c = true
    · rcases hfirst c rfl hblank with ⟨more, hmore⟩ | ⟨more, hmore⟩
      · apply hrun
        intro _ _ hbreak
        have hc : c = '\n' := by simpa using (List.cons.inj hmore).1.symm
        subst hc
        simp [State.arrive, Window.push] at hbreak
      · obtain ⟨rfl, rfl⟩ : c = '\r' ∧ rest = '\n' :: more := by simpa using hmore.symm
        have hall := Follows.after (Or.inr (Or.inl matched_carriageReturn)) (by simp) (by simp) more
        simpa [State.after_append] using hall
    · apply hrun
      exact State.sameStart_of_visible ((State.settled_after []).arrive c).window
        ((State.settled_after []).arrive c).last (by simpa using hblank)

/-- A text without findings stands in the block of a rule as it does alone. -/
theorem scanText_nested {cs : List Char} (hfirst : StartsPlain cs)
    (hfindings : findingsOf (scanText cs) = []) :
    ∃ children : List Token,
      List.Forall₂ (Token.Like (.moved ⟨1, 3⟩)) (tokensOf (scanText cs)) children ∧
      scanText (['x', '{'] ++ cs ++ ['}']) =
        [.token (.leaf { id := 0, start := ⟨1, 1⟩, stop := ⟨1, 2⟩ } (.selector "x" [])),
          .token (.block
            { id := 1
              previous := some 0
              start := ⟨1, 2⟩
              stop := Position.start.advanceAll (['x', '{'] ++ cs ++ ['}']) } children)] := by
  rcases follows_start hfirst with hreported | hmatched | hahead
  · exact absurd hfindings hreported.finish
  · obtain ⟨b, hframe, hitems, hchildren, hscan, hfinish⟩ := hmatched.brace hfindings
    refine ⟨b.children, hchildren, ?_⟩
    have hheader : State.itemsOf {} ['x', '{'] =
        [.token (.leaf { id := 0, start := ⟨1, 1⟩, stop := ⟨1, 2⟩ } (.selector "x" []))] := by
      decide +kernel
    have hlast : (State.after {} (['x', '{'] ++ cs)).lastTopLevel = some 0 := by
      rw [(State.grown_after _).last, State.itemsOf_append, hheader, hitems]
      rfl
    have hnext : (State.after {} (['x', '{'] ++ cs)).next.advance '}' =
        Position.start.advanceAll (['x', '{'] ++ cs ++ ['}']) := by
      rw [(State.settled_after _).next, Position.advanceAll_append _ (['x', '{'] ++ cs)]
      rfl
    have hlt : (⟨1, 2⟩ : Position) < Position.start.advanceAll (['x', '{'] ++ cs ++ ['}']) :=
      lt_of_lt_of_le (Position.lt_advance ⟨1, 2⟩ '{')
        (Position.le_advanceAll ((⟨1, 2⟩ : Position).advance '{') (cs ++ ['}']))
    rw [hlast, hnext] at hscan
    simp only [OpenBlock.frame, Prod.mk.injEq] at hframe
    have hclose : b.close (Position.start.advanceAll (['x', '{'] ++ cs ++ ['}'])) =
        .block ⟨1, none, none, ⟨1, 2⟩, Position.start.advanceAll (['x', '{'] ++ cs ++ ['}'])⟩
          b.children := by
      rw [OpenBlock.close, Token.ofChildren, Placement.detached, hframe.1, hframe.2,
        Position.widen_of_lt hlt]
    rw [scanText, State.itemsOf_concat, State.after_concat, hfinish, hscan, State.itemsOf_append,
      hheader, hitems, hclose]
    rfl
  · rw [scanText, findingsOf_append, List.append_eq_nil_iff] at hfindings
    exact absurd hfindings.2 hahead.finish

end Scan

namespace Source

/-- A text that tokenizes without structural findings is, in the block of a rule, the same tokens at
their place in the source. The rest of the stream is the selector of the rule and the block. -/
theorem tokenize_nested (cs : List Char) (hmark : cs.head? ≠ some byteOrderMark)
    (hfirst : Scan.StartsPlain cs)
    (hfindings : findingsOf (ofString (String.ofList cs)).tokenize.items = []) :
    ∃ children : List Token,
      (ofString (String.ofList (['x', '{'] ++ cs ++ ['}']))).tokenize.items =
        [.token (.leaf { id := 0, start := ⟨1, 1⟩, stop := ⟨1, 2⟩ } (.selector "x" [])),
          .token (.block
            { id := 1
              previous := some 0
              start := ⟨1, 2⟩
              stop := Position.start.advanceAll (['x', '{'] ++ cs ++ ['}']) } children)] ∧
      children.map Token.unlinked =
        (tokensOf (ofString (String.ofList cs)).tokenize.items).map
          (Token.relocated (Position.moved · ⟨1, 3⟩)) := by
  have hdrop (ds : List Char) (hds : ds.head? ≠ some byteOrderMark) : dropMark ds = ds := by
    cases ds with
    | nil => rfl
    | cons c ds => rw [dropMark, if_neg (by simpa using hds)]
  rw [items_tokenize_ofString cs, hdrop cs hmark] at hfindings ⊢
  rw [items_tokenize_ofString, hdrop _ (by simp [byteOrderMark])]
  obtain ⟨children, hlike, hscan⟩ := Scan.scanText_nested hfirst hfindings
  exact ⟨children, hscan, Token.map_unlinked_eq_of_like hlike⟩

/-- A rule with a pseudo-class, on a line of its own. -/
theorem tokenize_nested_pseudoClass :
    let cs := "\na:hover{b:c}".toList
    cs.head? ≠ some byteOrderMark ∧ Scan.StartsPlain cs ∧
    findingsOf (ofString (String.ofList cs)).tokenize.items = [] ∧
    ∃ children : List Token,
      (ofString (String.ofList (['x', '{'] ++ cs ++ ['}']))).tokenize.items =
        [.token (.leaf { id := 0, start := ⟨1, 1⟩, stop := ⟨1, 2⟩ } (.selector "x" [])),
          .token (.block
            { id := 1
              previous := some 0
              start := ⟨1, 2⟩
              stop := Position.start.advanceAll (['x', '{'] ++ cs ++ ['}']) } children)] ∧
      children.map Token.unlinked =
        (tokensOf (ofString (String.ofList cs)).tokenize.items).map
          (Token.relocated (Position.moved · ⟨1, 3⟩)) := by
  intro cs
  have hmark : cs.head? ≠ some byteOrderMark := by decide
  have hfirst : Scan.StartsPlain cs := fun _ _ _ => Or.inl (by decide)
  have hfindings : findingsOf (ofString (String.ofList cs)).tokenize.items = [] := by
    rw [items_tokenize_ofString]
    decide +kernel
  exact ⟨hmark, hfirst, hfindings, tokenize_nested cs hmark hfirst hfindings⟩

end Source

end Stylesheet
