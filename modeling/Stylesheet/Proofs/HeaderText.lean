import Stylesheet.Proofs.Indentation
import Stylesheet.Proofs.Location
import Stylesheet.Proofs.Scan.Following

set_option autoImplicit false

/-! # The text before a block

Unless an at-rule ends there, the brace that opens a block decides what the pending text before it
is. Blanks are nothing. A text over the selector alphabet becomes a selector. Any other text is
reported once, for its first character outside the alphabet. `ReadsHeader` says so, and
`Source.header_text` that it holds at every such brace of a source.

The scanner accepts just what the selector check accepts, so two wordings are never needed: that of
a header in which no character is at fault, and that of a selector in which one is. -/

namespace Stylesheet

namespace Selector

theorem firstForbidden?_append_cons {before after : List Char} {c : Char}
    (hbefore : ∀ d ∈ before, isAllowed d = true) (hc : isAllowed c = false) :
    firstForbidden? (before ++ c :: after) = some c := by
  rw [firstForbidden?, List.find?_eq_some_iff_append]
  exact ⟨by simp [hc], before, after, rfl, by simpa using hbefore⟩

/-- A text is empty, or a selector, or has a first character that may not stand in one. -/
theorem cases (text : List Char) :
    text = [] ∨ isSelector text = true ∨ ∃ before c after, text = before ++ c :: after ∧
      (∀ d ∈ before, isAllowed d = true) ∧ isAllowed c = false := by
  cases hfirst : firstForbidden? text with
  | none =>
    have hall := firstForbidden?_eq_none_iff.1 hfirst
    by_cases hempty : text = []
    · exact Or.inl hempty
    · exact Or.inr (Or.inl (isSelector_iff.2 ⟨hempty, hall⟩))
  | some c =>
    obtain ⟨hc, before, after, htext, hbefore⟩ := List.find?_eq_some_iff_append.1 hfirst
    exact Or.inr (Or.inr ⟨before, c, after, htext, by simpa using hbefore, by simpa using hc⟩)

end Selector

/-- Without visible cells, nothing is left of the text. -/
theorem Cell.trim_text_eq_nil {cells : List Cell} (h : span? cells = none) :
    Text.trim (text cells) = [] := by
  rw [Text.trim_eq_nil_iff, Text.allBlank, List.all_eq_true]
  intro c hc
  obtain ⟨cell, hcell, rfl⟩ := List.mem_map.1 hc
  simpa [isVisible] using span?_eq_none_iff.1 h cell hcell

namespace Scan

/-! ## One brace -/

/-- What a brace has to make of the text before it, which stands at `span`: the tokens it finishes
and what it reports. -/
structure ReadsHeader (text : List Char) (span : Option (Position × Position))
    (emitted : List Token) (found : List Finding) : Prop where
  blank : text = [] → (∀ t ∈ emitted, t.type ≠ .selector) ∧ found = []
  selector : text ≠ [] → (∀ c ∈ text, Selector.isAllowed c = true) → found = [] ∧
    ∃ place anchors, emitted = [.leaf place (.selector (String.ofList text) anchors)] ∧
      span = some (place.start, place.stop)
  malformed : ∀ before c after, text = before ++ c :: after →
    (∀ d ∈ before, Selector.isAllowed d = true) → Selector.isAllowed c = false → emitted = [] ∧
    ∃ start stop, span = some (start, stop) ∧
      found = [⟨.forbiddenCharacter c (String.ofList text), start, stop⟩]

section Step

variable {s s' : State} {cs : List Char} {rule : Rule} {outcome : Outcome} {t : Token}

theorem readsHeader_nil {emitted : List Token} (h : ∀ t ∈ emitted, t.type ≠ .selector)
    (span : Option (Position × Position)) : ReadsHeader [] span emitted [] where
  blank _ := ⟨h, rfl⟩
  selector hne := absurd rfl hne
  malformed := by simp

/-- Outside comments the rule for comments waits for a star. -/
theorem Claim.rule_ne_comment {c : Char} (h : Claim s c rule outcome s') (hs : s.Offered cs c)
    (hk : s.comment = none) (hc : c ≠ '*') : rule ≠ .comment := by
  cases h with
  | inComment k hk' | stripComment k hk' | closeComment k hk' => simp [hk] at hk'
  | openComment _ star slash before hrecent hstar =>
    have hlast := hs.last
    simp only [Window.last?, hrecent, List.head?_cons, Option.map_some, hstar,
      Option.some.injEq] at hlast
    exact absurd hlast.symm hc
  | _ => simp

/-- The brace that finishes a token other than an at-rule finishes a selector, or indentation with
nothing behind it. -/
theorem Claim.readsHeader_of_token (h : Claim s '{' rule (.token t) s') (hs : s.Offered cs '{')
    (hcurrent : s.currentType ≠ some .atRule) :
    ReadsHeader (Text.trim s.bodyText) (Cell.span? s.window.body) [s'.linked t] [] := by
  have hcontinues := (h.continues_brace hs rfl).1
  obtain ⟨p, -, hstart, hstop, hlinked⟩ := s'.exists_linked t
  rw [hlinked]
  cases h with
  | closeComment => simp [OpenComment.close, Leaf.type] at hcontinues
  | closeAtRule hk o ho hkind => simp [State.currentType, ho, hkind, OpenKind.type] at hcurrent
  | closeProperty hk _ _ _ _ _ hc => simp at hc
  | closeBlock hk _ hc => simp at hc
  | closeWhitespace hk o ho hkind =>
    rw [State.bodyText, Cell.trim_text_eq_nil (hs.span?_of_whitespace hk ho hkind)]
    exact readsHeader_nil (by simp [OpenToken.close, Leaf.type]) _
  | selector hk _ _ _ hselector start stop hspan anchors =>
    obtain ⟨hne, hall⟩ := Selector.isSelector_iff.1 hselector
    refine ⟨fun hnil => absurd hnil hne, fun _ _ => ⟨rfl, p, anchors, rfl, ?_⟩, ?_⟩
    · have hlt := hs.ordered_body.start_lt_stop hspan
      rw [hspan, hstart, hstop]
      simp [Token.ofLeaf, Token.start, Token.stop, Token.place, Placement.detached,
        Position.widen_of_lt hlt]
    · intro before c after htext _ hc
      rw [hall c (by simp [htext])] at hc
      simp at hc

theorem Claim.comment_of_block {c : Char} (h : Claim s c .block outcome s') : s.comment = none := by
  cases h <;> assumption

/-- A brace that is claimed by the rule for blocks has no selector before it. -/
theorem Claim.readsHeader_of_block (h : Claim s '{' .block outcome s') (hs : s.Offered cs '{')
    (ht : outcome.token? = none)
    (hfirst : State.firstClaim Rule.order.tail s = (some (.block, outcome), s')) :
    ReadsHeader (Text.trim s.bodyText) (Cell.span? s.window.body) []
      (findingsOf outcome.found) := by
  cases h with
  | closeBlock | closeBlockAfter => simp [Outcome.token?] at ht
  | strayBrace _ _ hc | strayContent _ _ hc => simp at hc
  | openBlock _ _ _ _ hspan =>
    rw [State.bodyText, Cell.trim_text_eq_nil hspan]
    exact readsHeader_nil (by simp) _
  | openUnclaimed hk _ hcurrent hstring start stop hspan =>
    have hlt := hs.ordered_body.start_lt_stop hspan
    have hvisible : Text.trim s.bodyText ≠ [] := by
      rw [ne_eq, Text.trim_eq_nil_iff, Bool.not_eq_true]
      exact Cell.allBlank_eq_false hspan
    refine ⟨fun hnil => absurd hnil hvisible, ?_, ?_⟩
    · -- the rule for selectors would have come first
      intro _ hall
      have hselector : Selector.isSelector (Text.trim s.bodyText) = true :=
        Selector.isSelector_iff.2 ⟨hvisible, hall⟩
      obtain ⟨u, s'', htake⟩ : ∃ u s'', s.takeSelector = (.token u, s'') := by
        simp [State.takeSelector, hstring, hselector, hspan]
      have hcurrent' :
          s.current = none ∨ ∃ o name, s.current = some o ∧ o.kind = .property name := by
        rcases hcurrent with hnone | ⟨o, name, ho, hkind, -⟩
        · exact Or.inl hnone
        · exact Or.inr ⟨o, name, ho, hkind⟩
      have hskip : Rule.comment.scan s = (.skip, s) :=
        (Rule.scan_cases hs.last (by simp)).resolve_right fun hclaim =>
          hclaim.rule_ne_comment hs hk (by decide) rfl
      rw [(claim_of_takeSelector hs hskip hcurrent' htake).1] at hfirst
      simp at hfirst
    · intro before c after htext hbefore hc
      refine ⟨rfl, start, stop, hspan, ?_⟩
      simp only [Outcome.found, Outcome.finding?, Option.toList_some, List.map_cons, List.map_nil,
        findingsOf_cons_finding, findingsOf_nil, Finding.spanning, Position.widen_of_lt hlt,
        State.headerIssue]
      rw [htext, Selector.firstForbidden?_append_cons hbefore hc]

/-- A header that is read is never reported without a character at fault. -/
theorem ReadsHeader.issue_ne {text : List Char} {span : Option (Position × Position)}
    {emitted : List Token} {found : List Finding} (h : ReadsHeader text span emitted found)
    {f : Finding} (hf : f ∈ found) (selector : String) : f.issue ≠ .unclaimedSelector selector := by
  rcases Selector.cases text with hnil | hselector | ⟨before, c, after, htext, hbefore, hc⟩
  · simp [(h.blank hnil).2] at hf
  · obtain ⟨hne, hall⟩ := Selector.isSelector_iff.1 hselector
    simp [(h.selector hne hall).1] at hf
  · obtain ⟨-, start, stop, -, rfl⟩ := h.malformed before c after htext hbefore hc
    rw [List.mem_singleton.1 hf]
    simp

end Step

/-! ## Every brace -/

/-- A block has been opened, and the tokens have been added to the sequence it is in, right before
it; there are no other new ones. -/
structure Emits (items : List Item) (blocks : List OpenBlock) (items' : List Item)
    (blocks' : List OpenBlock) (emitted : List Token) : Prop where
  sequence : sequenceOf items' blocks'.tail = sequenceOf items blocks ++ emitted
  finished : ∀ u, u ∈ finished items' blocks' ↔ u ∈ finished items blocks ∨ u ∈ emitted

/-- A brace that opens a block, other than that of an at-rule, stands outside comments and reads the
pending text as its header. -/
theorem Opening.exists_emitted {s last : State} {newItems : List Item} {cs : List Char}
    (h : Opening s newItems last) (hs : s.Offered cs '{') (hopens : last.depth = s.depth + 1)
    (hcurrent : s.currentType ≠ some .atRule) (items : List Item) :
    s.comment = none ∧ ∃ emitted, Emits items s.blocks (items ++ newItems) last.blocks emitted ∧
      ReadsHeader (Text.trim s.bodyText) (Cell.span? s.window.body) emitted
        (findingsOf newItems) := by
  have hsame (hblocks : last.blocks = s.blocks) : False := by
    simp [State.depth, hblocks] at hopens
  cases h with
  | passes _ hblocks => exact (hsame hblocks).elim
  | atOnce outcome _ hfirst hclaim ht =>
    rcases hclaim.blocks_cases ht with hblocks | ⟨-, id, header, hblocks⟩
    · exact (hsame hblocks).elim
    · refine ⟨hclaim.comment_of_block, [], ⟨?_, fun u => ?_⟩,
        hclaim.readsHeader_of_block hs ht hfirst⟩
      · rw [hblocks, List.tail_cons, List.append_nil]
        exact sequenceOf_congr (by simp)
      · rw [hclaim.finished_eq ht]
        exact (or_iff_left List.not_mem_nil).symm
  | afterToken rule t s' hclaim =>
    have hcontinues := (hclaim.continues_brace hs rfl).1
    refine ⟨hclaim.comment_eq_none rfl hcontinues, [s'.linked t], ⟨?_, fun u => ?_⟩, ?_⟩
    · show sequenceOf (items ++ (s'.complete t).1) (s'.complete t).2.blocks = _
      rw [← hclaim.blocks_of_brace hs rfl]
      exact sequenceOf_accept items (s'.recordCompleted t) t
    · rw [List.mem_singleton]
      exact hclaim.mem_finished_reopened hs items
    · rw [findingsOf_complete]
      exact hclaim.readsHeader_of_token hs hcurrent

/-- Only before an opening brace is a header reported. -/
theorem Claim.issue_ne {s s' : State} {c : Char} {rule : Rule} {outcome : Outcome}
    (h : Claim s c rule outcome s') (hc : c ≠ '{') {f : Finding} (hf : outcome.finding? = some f)
    (selector : String) : f.issue ≠ .unclaimedSelector selector := by
  cases h with
  | openUnclaimed _ hbrace => exact absurd hbrace hc
  | rejectContent | closeBlockAfter | strayBrace | strayContent =>
    rw [← Option.some.inj hf]
    simp [Finding.spanning]
  | _ => simp [Outcome.finding?] at hf

theorem Opening.issue_ne {s last : State} {newItems : List Item} {cs : List Char}
    (h : Opening s newItems last) (hs : s.Offered cs '{') {f : Finding}
    (hf : f ∈ findingsOf newItems) (selector : String) :
    f.issue ≠ .unclaimedSelector selector := by
  cases h with
  | passes => simp at hf
  | atOnce outcome _ hfirst hclaim ht =>
    exact (hclaim.readsHeader_of_block hs ht hfirst).issue_ne hf selector
  | afterToken => simp [findingsOf_complete] at hf

/-- No header is reported without a character at fault. -/
theorem State.issue_ne_of_mem_itemsOf (cs : List Char) :
    ∀ f ∈ findingsOf (itemsOf {} cs), ∀ selector, f.issue ≠ .unclaimedSelector selector := by
  induction cs using List.reverseRecOn with
  | nil => simp
  | append_singleton cs c ih =>
    have hs := (settled_after cs).arrive c
    rw [itemsOf_concat]
    by_cases hc : c = '{'
    · subst hc
      intro f hf
      rw [findingsOf_append, List.mem_append] at hf
      exact hf.elim (ih f) ((opening cs).issue_ne hs)
    · exact (preserves_forall_findings fun h hf => h.issue_ne hc hf).scan _ ⟨hs, ih⟩

end Scan

/-! ## Headers and selectors of a source -/

/-- Of a text over the selector alphabet, only its doubled characters and its parentheses are
reported. -/
theorem Check.issue_of_mem_selector {place : Placement} {text : String} {anchors : List Anchor}
    (hall : ∀ c ∈ text.toList, Selector.isAllowed c = true) {f : Finding}
    (hf : f ∈ selector place text anchors) :
    (∃ pair, f.issue = .doubledCharacter pair text) ∨ f.issue = .unbalancedParentheses text := by
  rcases cases_of_mem_selector hf with ⟨offset, c, hforbidden, -⟩ | ⟨offset, c, -, rfl⟩ | rfl
  · rw [forbiddenAt?, Selector.firstForbidden?_eq_none_iff.2 hall] at hforbidden
    simp at hforbidden
  · exact Or.inl ⟨_, rfl⟩
  · exact Or.inr rfl

namespace Source

open Scan

/-- A selector of a source is reported for its doubled characters and its parentheses only. -/
theorem issue_of_selector (source : Source) {place : Placement} {text : String}
    {anchors : List Anchor} (ht : .leaf place (.selector text anchors) ∈ source.tokens)
    {f : Finding} (hf : f ∈ Check.selector place text anchors) :
    (∃ pair, f.issue = .doubledCharacter pair text) ∨ f.issue = .unbalancedParentheses text := by
  obtain ⟨-, hselector, -⟩ := source.traces_of_mem_tokens ht
  exact Check.issue_of_mem_selector (Selector.isSelector_iff.1 hselector).2 hf

theorem issue_ne_of_tokenize (source : Source) {f : Finding}
    (hf : f ∈ findingsOf source.tokenize.items) (selector : String) :
    f.issue ≠ .unclaimedSelector selector := by
  cases hfailure : source.characters.failure with
  | some failure =>
    rw [items_tokenize_of_failure hfailure] at hf
    exact State.issue_ne_of_mem_itemsOf _ f hf selector
  | none =>
    rw [items_tokenize hfailure, scanText, findingsOf_append, List.mem_append] at hf
    rcases hf with hf | hf
    · exact State.issue_ne_of_mem_itemsOf _ f hf selector
    · intro hissue
      have hfinal := State.isFinal_finish _ f hf
      simp [hissue, Issue.isFinal] at hfinal

/-- No checker words a finding as one about a header. -/
theorem issue_ne_of_check (source : Source) {k : Knowledge} {scope : Scope} {t : Token}
    (ht : t ∈ source.tokens) {f : Finding} (hf : f ∈ Check.token k scope t) (selector : String) :
    f.issue ≠ .unclaimedSelector selector := by
  intro hissue
  have htype := Check.checkedType?_of_mem_token hf
  rw [Finding.key, hissue, Issue.key, Check.checkedType?, Option.some.injEq] at htype
  cases t with
  | block place children => simp [Token.type] at htype
  | leaf place content =>
    cases content with
    | selector text anchors =>
      rcases source.issue_of_selector ht hf with ⟨pair, hother⟩ | hother
      all_goals simp [hissue] at hother
    | _ => simp [Token.type, Leaf.type] at htype

/-- Wherever a brace opens a block that no at-rule ends before, the pending text becomes nothing, a
selector or a report, just as the selector alphabet has it. So no header is reported without naming
a character, and no selector of the source is reported for one of its characters. -/
theorem header_text (source : Source) :
    (∀ before after, source.characters.items = before ++ '{' :: after →
      let s := State.after {} before
      let s' := State.after {} (before ++ ['{'])
      let text := Text.trim s.window.text
      s'.depth = s.depth + 1 → s.currentType ≠ some .atRule →
      (∀ start stop, Cell.span? s.window.cells = some (start, stop) →
        bareText (before ++ ['{']) start stop = text) ∧
      ∃ emitted, Emits (State.itemsOf {} before) s.blocks (State.itemsOf {} (before ++ ['{']))
          s'.blocks emitted ∧
        ReadsHeader text (Cell.span? s.window.cells) emitted (findingsOf (s.scan '{').1.items)) ∧
    (∀ k, ∀ f ∈ (source.findings k).items, ∀ selector, f.issue ≠ .unclaimedSelector selector) ∧
    ∀ k scope, ∀ t ∈ source.tokens, ∀ found, Checker.selector.check k scope t = .ok found →
      ∀ f ∈ found, ∀ c selector, f.issue ≠ .forbiddenCharacter c selector := by
  refine ⟨?_, ?_, ?_⟩
  · intro before after _ s s' text hopens hcurrent
    have hs := State.telling_arrive before '{'
    have hafter : s' = (s.scan '{').2 := State.after_concat {} before '{'
    rw [hafter] at hopens
    obtain ⟨hcomment, emitted, hemits, hreads⟩ :=
      (opening before).exists_emitted hs.toOffered hopens hcurrent (State.itemsOf {} before)
    rw [← State.itemsOf_concat, ← State.after_concat] at hemits
    refine ⟨?_, emitted, hemits, hreads⟩
    intro start stop hspan
    have hbare := hs.bareText_bodyStop hcomment (by decide) hspan
    rwa [(hs.bodyStop_of_span hspan).2.1] at hbare
  · intro k f hf selector
    rw [items_findings, List.mem_flatMap] at hf
    obtain ⟨step, hstep, hf⟩ := hf
    cases step with
    | check scope t =>
      exact source.issue_ne_of_check (source.mem_tokens_of_check hstep).1 hf selector
    | report g =>
      rw [LintStep.findings, List.mem_singleton] at hf
      exact source.issue_ne_of_tokenize (hf ▸ mem_findingsOf_of_report hstep) selector
  · intro k scope t ht found hfound f hf c selector
    cases t with
    | block place children => simp [Checker.check] at hfound
    | leaf place content =>
      cases content with
      | selector text anchors =>
        obtain rfl : Check.selector place text anchors = found := Except.ok.inj hfound
        rcases source.issue_of_selector ht hf with ⟨pair, hissue⟩ | hissue
        all_goals simp [hissue]
      | _ => simp [Checker.check] at hfound

/-- A declaration that is given up at the brace, with a comment in it. -/
theorem header_text_abandoned :
    let source := ofString "p\x7ba:b/**/!c\x7b\x7d\x7d"
    let before := "p\x7ba:b/**/!c".toList
    let s := State.after {} before
    source.characters.items = before ++ '{' :: "\x7d\x7d".toList ∧ s.currentType = some .property ∧
      (State.after {} (before ++ ['{'])).depth = s.depth + 1 ∧
      Emits (State.itemsOf {} before) s.blocks (State.itemsOf {} (before ++ ['{']))
        (State.after {} (before ++ ['{'])).blocks [] ∧
      findingsOf (s.scan '{').1.items =
        [⟨.forbiddenCharacter '!' "a:b!c", ⟨1, 3⟩, ⟨1, 12⟩⟩] := by
  intro source before s
  have hitems : source.characters.items = before ++ '{' :: "\x7d\x7d".toList := by
    rw [characters_ofString]
    decide +kernel
  have hdepth : (State.after {} (before ++ ['{'])).depth = s.depth + 1 := by decide +kernel
  have htype : s.currentType = some .property := by decide +kernel
  have hcells : s.window.cells =
      [⟨'a', ⟨1, 3⟩⟩, ⟨':', ⟨1, 4⟩⟩, ⟨'b', ⟨1, 5⟩⟩, ⟨'!', ⟨1, 10⟩⟩, ⟨'c', ⟨1, 11⟩⟩] := by
    decide +kernel
  have htext : Text.trim s.window.text = "a:b".toList ++ '!' :: "c".toList := by
    rw [Window.text, hcells]
    decide +kernel
  obtain ⟨-, emitted, hemits, hreads⟩ :=
    source.header_text.1 before _ hitems hdepth (by rw [htype]; decide)
  obtain ⟨rfl, start, stop, hspan, hfound⟩ :=
    hreads.malformed _ _ _ htext (List.all_eq_true.1 (by decide +kernel)) (by decide +kernel)
  have hspan' : Cell.span? s.window.cells = some (⟨1, 3⟩, ⟨1, 12⟩) := by
    rw [hcells]
    decide +kernel
  obtain ⟨rfl, rfl⟩ := Prod.mk.inj (Option.some.inj (hspan.symm.trans hspan'))
  rw [htext] at hfound
  exact ⟨hitems, htype, hdepth, hemits, hfound⟩

end Source

end Stylesheet
