import Stylesheet.Proofs.Relocation
import Stylesheet.Proofs.Scan.Lockstep
import Stylesheet.Proofs.Scan.Stuck

set_option autoImplicit false

/-! # The same text in a block

A run in a block follows a run over the same text outside all blocks, wherever the text stands,
until the outer one reports something. The two are in lockstep, with one exception: after a name and
a colon the inner run has opened a declaration, while to the outer one this is the beginning of a
selector (`Ahead`). An opening brace brings them together again. Anything else that the inner run
takes the declaration for leaves the outer one stuck. -/

namespace Stylesheet.Scan

variable {origin : Position} {frames : List (TokenId × Position)}

/-- The second run has opened a declaration at a name and a colon, and the first has not. -/
def Ahead (origin : Position) (frames : List (TokenId × Position)) (items items' : List Item)
    (s t : State) : Prop :=
  ∃ base, base.map OpenBlock.frame = frames ∧ Sent (.moved origin) items items' base ∧
    s.Beside (.moved origin) base t ∧ s.blocks = [] ∧ s.current = none ∧
    ∃ o name, t.current = some o ∧ o.kind = .property name

/-- The second run follows the first, unless the first has something to report. -/
def Follows (origin : Position) (frames : List (TokenId × Position)) (items items' : List Item)
    (s t : State) : Prop :=
  State.Reported items s s.window.cells ∨ Matched (.moved origin) frames items items' s t ∨
    Ahead origin frames items items' s t

section Step

variable {base : List OpenBlock} {items items' : List Item} {s s' t : State} {cs ds : List Char}
  {c : Char} {rule : Rule} {outcome : Outcome}

/-! ## Outside all blocks -/

/-- With nothing open outside all blocks, a colon and a semicolon are left alone, and a closing
brace is reported. -/
theorem Claim.outermost (h : Claim s c rule outcome s') (hs : s.Offered cs c)
    (hblocks : s.blocks = []) (hcurrent : s.current = none) (hcomment : s.comment = none)
    (hc : c = ':' ∨ c = ';' ∨ c = '}') :
    outcome.token? = none ∧ findingsOf outcome.found ≠ [] := by
  have hbrace : c ≠ '{' := by
    rintro rfl
    simp at hc
  cases h with
  | inComment k hk | stripComment k hk | closeComment k hk => simp [hcomment] at hk
  | openComment hk star slash before hrecent hstar =>
    have hlast := hs.last
    simp only [Window.last?, hrecent, List.head?_cons, Option.map_some, hstar,
      Option.some.injEq] at hlast
    subst hlast
    simp at hc
  | openAtRule hk _ hat =>
    subst hat
    simp at hc
  | closeAtRule hk o ho | inWhitespace hk o ho | closeWhitespace hk o ho => simp [hcurrent] at ho
  | selector hk hopen | openBlock hk hopen | openUnclaimed hk hopen => exact absurd hopen hbrace
  | openProperty hk hne | closeProperty hk hne | rejectBlank hk hne | rejectContent hk hne =>
    exact absurd hblocks hne
  | closeBlock hk _ _ _ _ b blocks hcons => simp [hblocks] at hcons
  | closeBlockAfter hk _ _ _ _ _ _ b blocks hcons => simp [hblocks] at hcons
  | strayBrace | strayContent => exact ⟨rfl, by simp [Outcome.found, Outcome.finding?]⟩
  | openWhitespace hk _ hblank =>
    rcases hc with rfl | rfl | rfl <;> exact absurd hblank (by decide)

/-- With nothing open, a colon is claimed by opening a declaration only. -/
theorem Claim.colon (h : Claim s ':' rule outcome s') (hs : s.Offered cs ':')
    (hcurrent : s.current = none) (hcomment : s.comment = none) :
    ∃ name start, outcome = .consumed ∧ s' = s.openToken (.property name) start := by
  cases h with
  | inComment k hk | stripComment k hk | closeComment k hk => simp [hcomment] at hk
  | openComment hk star slash before hrecent hstar =>
    have hlast := hs.last
    simp [Window.last?, hrecent, hstar] at hlast
  | closeAtRule hk o ho | inWhitespace hk o ho | closeWhitespace hk o ho
  | closeProperty hk _ o ho =>
    simp [hcurrent] at ho
  | openProperty hk hne _ _ name _ start => exact ⟨name, start, rfl, rfl⟩
  | openAtRule hk _ hc | selector hk hc | openBlock hk hc | openUnclaimed hk hc
  | rejectBlank hk _ _ hc | rejectContent hk _ _ hc | closeBlock hk _ hc | closeBlockAfter hk _ hc
  | strayBrace hk _ hc | strayContent hk _ hc => simp at hc
  | openWhitespace hk _ hblank => exact absurd hblank (by decide)

/-- Where the character means something else in the block, the second run goes ahead or the first
has something to report. -/
theorem follows_of_not_aligned (passes : Nat) (rules : List Rule)
    (hframes : base.map OpenBlock.frame = frames) (hsent : Sent (.moved origin) items items' base)
    (h : s.Like (.moved origin) base t) (hs : s.Offered cs c) (ht : t.Offered ds c)
    (hcomment : s.comment = none) (hapart : ¬ s.Aligned t c) (hrules : Rule.lineEnding ∉ rules) :
    Follows origin frames (items ++ (State.scanPasses c (passes + 1) rules s).1.items)
      (items' ++ (State.scanPasses c (passes + 1) rules t).1.items)
      (State.scanPasses c (passes + 1) rules s).2
      (State.scanPasses c (passes + 1) rules t).2 := by
  obtain ⟨hblocks, hcurrent, hc⟩ : s.blocks = [] ∧ s.current = none ∧
      (c = ':' ∨ c = ';' ∨ c = '}') := by
    simp only [State.Aligned, Classical.not_imp, not_or, not_not] at hapart
    refine ⟨hapart.1, hapart.2.2.1, ?_⟩
    have hthree := hapart.2.2.2
    by_contra hnone
    simp only [not_or] at hnone
    exact hthree hnone
  have hcurrent' : t.current = none := eq_none_of_rel h.current hcurrent
  have hcomment' : t.comment = none := eq_none_of_rel h.comment hcomment
  rcases firstClaim_cases rules hs.last hrules with
    ⟨hnone, -⟩ | ⟨rule, outcome, s', -, hsome, hclaim⟩
  · rcases hc with rfl | hend
    · -- a colon stays pending outside, and may begin the value of a declaration inside
      rcases firstClaim_cases rules ht.last hrules with
        ⟨hnone', -⟩ | ⟨rule, outcome, t', -, hsome', hclaim'⟩
      · refine Or.inr (Or.inl ⟨base, hframes, ?_, ?_⟩)
        · simpa [State.scanPasses, hnone, hnone'] using hsent
        · simpa [State.scanPasses, hnone, hnone'] using h
      · obtain ⟨name, start, rfl, rfl⟩ := hclaim'.colon ht hcurrent' hcomment'
        have hbeside : s.Beside (.moved origin) base (t.openToken (.property name) start) :=
          ⟨h.next, h.window, h.comment, h.blocks, trivial⟩
        simp only [State.scanPasses, hnone, hsome', Outcome.token?, Outcome.finding?,
          Option.toList_none, List.map_nil, List.append_nil]
        exact Or.inr (Or.inr ⟨base, hframes, hsent, hbeside, hblocks, hcurrent, _, name, rfl, rfl⟩)
    · -- a semicolon or a brace that stays pending can only be reported
      refine Or.inl (Or.inr ?_)
      have hend' : Text.IsEnd c := by
        rcases hend with rfl | rfl
        · exact Or.inl rfl
        · exact Or.inr (Or.inr rfl)
      simpa [State.scanPasses, hnone] using hs.stuck hblocks hcurrent hcomment (Or.inl hend')
  · obtain ⟨htoken, hfound⟩ := hclaim.outermost hs hblocks hcurrent hcomment hc
    refine Or.inl (Or.inl ?_)
    simp only [State.scanPasses, hsome, htoken, findingsOf_append, ne_eq, List.append_eq_nil_iff,
      not_and]
    exact fun _ => hfound

/-- Two runs that offer a character in states that are alike stay together, or the second goes
ahead, or the first has something to report. -/
theorem State.Like.follows (h : s.Like (.moved origin) base t) (passes : Nat) {rules : List Rule}
    (hrules : Rule.lineEnding ∉ rules) (hframes : base.map OpenBlock.frame = frames)
    (hsent : Sent (.moved origin) items items' base) (hface : s.Facing (.moved origin) t)
    (hs : s.Offered cs c) (ht : t.Offered ds c) (hstart : s.SameStart t) :
    Follows origin frames (items ++ (scanPasses c passes rules s).1.items)
      (items' ++ (scanPasses c passes rules t).1.items) (scanPasses c passes rules s).2
      (scanPasses c passes rules t).2 :=
  scanPasses_like (Q := Follows origin frames)
    (fun hmatched => Or.inr (Or.inl hmatched))
    (fun passes rules hframes hsent h _ hs ht hcomment hapart hrules =>
      follows_of_not_aligned passes rules hframes hsent h hs ht hcomment hapart hrules)
    passes hrules hframes hsent h hface hs ht hstart

/-! ## Ahead -/

/-- With visible text pending outside all blocks and no token open, only the rules for comments and
selectors can do more than report it. -/
theorem Claim.unclaimed (h : Claim s c rule outcome s') (hs : s.Offered cs c)
    (hblocks : s.blocks = []) (hcurrent : s.current = none)
    (hvisible : ∃ cell ∈ s.window.body, cell.isVisible = true) (hrule : rule ≠ .comment)
    (hrule' : rule ≠ .selector) :
    rule ≠ .atRule ∧ outcome.token? = none ∧ findingsOf outcome.found ≠ [] := by
  obtain ⟨cell, hcell, hvisible⟩ := hvisible
  cases h with
  | inComment | stripComment | closeComment | openComment => exact absurd rfl hrule
  | selector => exact absurd rfl hrule'
  | closeAtRule hk o ho | inWhitespace hk o ho | closeWhitespace hk o ho => simp [hcurrent] at ho
  | openAtRule hk _ hc hsign =>
    have htext : s.window.text = Cell.text s.window.body ++ ['@'] := by
      rw [Window.text, hs.cells, hc, Cell.text, List.map_append]
      rfl
    rw [htext] at hsign
    have hblank := List.all_eq_true.1 (allBlank_of_isAtSign hsign) _ (List.mem_map_of_mem hcell)
    simp [Cell.isVisible, hblank] at hvisible
  | openProperty hk hne | closeProperty hk hne | rejectBlank hk hne | rejectContent hk hne =>
    exact absurd hblocks hne
  | openBlock hk _ _ _ hspan | strayBrace hk _ _ _ hspan =>
    simp [Cell.span?_eq_none_iff.1 hspan cell hcell] at hvisible
  | openUnclaimed | strayContent => exact ⟨by simp, rfl, by simp [Outcome.found, Outcome.finding?]⟩
  | closeBlock hk _ _ _ _ b blocks hcons => simp [hblocks] at hcons
  | closeBlockAfter hk _ _ _ _ _ _ b blocks hcons => simp [hblocks] at hcons
  | openWhitespace hk _ _ hblank =>
    have := hs.window.isBlank_iff.1 hblank cell (by simp [hs.cells, hcell])
    simp [Cell.isVisible, this] at hvisible

/-- Nothing but its end, an opening brace or a comment is claimed in a declaration. -/
theorem Claim.isEnd_of_property (h : Claim s c rule outcome s') {o : OpenToken} {name : String}
    (ho : s.current = some o) (hkind : o.kind = .property name) (hrule : rule ≠ .comment) :
    Text.IsEnd c := by
  have hother {o' : OpenToken} (ho' : s.current = some o') : o'.kind = .property name := by
    rw [ho, Option.some.injEq] at ho'
    rw [← ho', hkind]
  cases h with
  | inComment | stripComment | closeComment | openComment => exact absurd rfl hrule
  | closeAtRule hk o' ho' hkind' | inWhitespace hk o' ho' hkind'
  | closeWhitespace hk o' ho' hkind' =>
    simp [hother ho'] at hkind'
  | openAtRule hk hnone | openProperty hk _ hnone | rejectBlank hk _ hnone
  | rejectContent hk _ hnone | closeBlock hk hnone | closeBlockAfter hk hnone
  | strayBrace hk hnone | strayContent hk hnone | openWhitespace hk hnone => simp [ho] at hnone
  | closeProperty hk _ o' ho' name' _ hc =>
    rcases hc with rfl | rfl
    · exact Or.inl rfl
    · exact Or.inr (Or.inr rfl)
  | selector hk hc | openBlock hk hc | openUnclaimed hk hc => exact Or.inr (Or.inl hc)

/-- A declaration begins with visible text, also before a slash. -/
theorem State.Offered.exists_visible (ht : t.Offered ds c) {o : OpenToken} {name : String}
    (ho : t.current = some o) (hkind : o.kind = .property name) (hcomment : t.comment = none) :
    (∃ cell ∈ t.window.body, cell.isVisible = true) ∧
      ∀ before slash, t.window.body = before ++ [slash] → slash.char = '/' →
        Text.allBlank (Cell.text before) = false := by
  have hbegins := ht.coherent.current hcomment o ho
  have hnot : o.kind ≠ .whitespace := by simp [hkind]
  constructor
  · obtain ⟨stop, hspan⟩ := hbegins.span hnot
    obtain ⟨cell, hcell, hvisible, -⟩ := Cell.exists_position_eq_start hspan
    exact ⟨cell, hcell, hvisible⟩
  · intro before slash hbody hslash
    rw [hbody] at hbegins
    obtain ⟨stop, hspan⟩ := (hbegins.of_append_slash hslash).2.span hnot
    obtain ⟨cell, hcell, hvisible, -⟩ := Cell.exists_position_eq_start hspan
    rw [Text.allBlank, List.all_eq_false]
    exact ⟨cell.char, List.mem_map_of_mem hcell, by simpa [Cell.isVisible] using hvisible⟩

/-- What stands before the opening of a comment is visible to both runs. -/
theorem State.Beside.opens_alike (h : s.Beside (.moved origin) base t) (ht : t.Offered ds c)
    {o : OpenToken} {name : String} (ho : t.current = some o) (hkind : o.kind = .property name)
    (hcomment : t.comment = none) {star slash : Cell} {before : List Cell}
    (hrecent : s.window.recent = star :: slash :: before) (hslash : slash.char = '/') :
    Text.allBlank (Cell.text before.reverse) = false := by
  have hlike := h.window.recent
  rw [hrecent] at hlike
  obtain ⟨star', rest', -, hrest, ht'⟩ := List.forall₂_cons_left_iff.1 hlike
  obtain ⟨slash', before', hslashes, hbefore, rfl⟩ := List.forall₂_cons_left_iff.1 hrest
  rw [Cell.text_eq_of_like (List.rel_reverse hbefore)]
  exact (ht.exists_visible ho hkind hcomment).2 before'.reverse slash'
    (by simp [Window.body, ht']) (hslashes.1.symm.trans hslash)

theorem Claim.consumed_of_comment (h : Claim s c .comment outcome s') (hs : s.Offered cs c)
    (hcurrent : s.current ≠ none) : outcome = .consumed := by
  cases h with
  | closeComment k hk _ _ hembedded =>
    exact absurd ((hs.coherent.comment k hk).of_standalone hembedded).1 hcurrent
  | _ => rfl

theorem Claim.blocks_of_comment (h : Claim s c .comment outcome s') : s'.blocks = s.blocks := by
  cases h <;> rfl

/-- The rule for comments leaves the second run ahead. -/
theorem State.Beside.comment_cases (h : s.Beside (.moved origin) base t) (hs : s.Offered cs c)
    (ht : t.Offered ds c) {o : OpenToken} {name : String} (ho : t.current = some o)
    (hkind : o.kind = .property name) :
    Rule.comment.scan s = (.skip, s) ∧ Rule.comment.scan t = (.skip, t) ∨
      ∃ s' t', Rule.comment.scan s = (.consumed, s') ∧ Rule.comment.scan t = (.consumed, t') ∧
        s'.Beside (.moved origin) base t' ∧ s'.blocks = s.blocks ∧ s'.current = s.current ∧
        t'.current = t.current := by
  have hscan : Rule.comment.scan s = s.scanComment := by simp [Rule.scan, hs.last]
  have hscan' : Rule.comment.scan t = t.scanComment := by simp [Rule.scan, ht.last]
  have halike := h.scanComment (by
    intro hcomment star slash before hrecent hslash
    rw [h.opens_alike ht ho hkind (eq_none_of_rel h.comment hcomment) hrecent hslash]
    simp)
  have hdecides := scanComment_decides (s := s) (c := c)
  have hdecides' := scanComment_decides (s := t) (c := c)
  rw [hscan, hscan']
  revert halike hdecides hdecides'
  generalize s.scanComment = r
  generalize t.scanComment = r'
  obtain ⟨outcome, s'⟩ := r
  obtain ⟨outcome', t'⟩ := r'
  rintro ⟨houtcome, hbeside, hcurrent, hcurrent'⟩ hdecides (hskip | hclaim')
  · obtain ⟨rfl, rfl⟩ := Prod.mk.injEq .. ▸ hskip
    cases houtcome
    rcases hdecides with hskip | hclaim
    · exact Or.inl ⟨hskip, rfl⟩
    · exact absurd rfl hclaim.ne_skip
  · obtain rfl : outcome' = .consumed := hclaim'.consumed_of_comment ht (by simp [ho])
    cases houtcome
    rcases hdecides with hskip | hclaim
    · simp at hskip
    · exact Or.inr ⟨s', t', rfl, rfl, hbeside, hclaim.blocks_of_comment, hcurrent, hcurrent'⟩

/-- With nothing but a declaration open, an opening brace is first of all the end of a selector. -/
theorem claim_of_takeSelector (hs : s.Offered cs '{') (hskip : Rule.comment.scan s = (.skip, s))
    (hcurrent : s.current = none ∨ ∃ o name, s.current = some o ∧ o.kind = .property name)
    {u : Token} (htake : s.takeSelector = (.token u, s')) :
    State.firstClaim Rule.order.tail s = (some (.selector, .token u), s') ∧
      Claim s '{' .selector (.token u) s' := by
  have hcomment := hs.comment_eq_none hskip
  have hatRule : Rule.atRule.scan s = (.skip, s) := by
    rcases hcurrent with hnone | ⟨o, name, ho, hkind⟩
    · simp [Rule.scan, hs.last, hcomment, State.scanAtRule, hnone]
    · simp [Rule.scan, hs.last, hcomment, State.scanAtRule, ho, hkind]
  have hselector : Rule.selector.scan s = (.token u, s') := by
    rcases hcurrent with hnone | ⟨o, name, ho, hkind⟩
    · simp [Rule.scan, hs.last, hcomment, State.scanSelector, State.currentType, hnone, htake]
    · simp [Rule.scan, hs.last, hcomment, State.scanSelector, State.currentType, ho, hkind,
        OpenKind.type, htake]
  have horder : Rule.order.tail =
      [.comment, .atRule, .selector, .property, .block, .whitespace] := rfl
  constructor
  · rw [horder, firstClaim_of_skip hskip, firstClaim_of_skip hatRule]
    exact firstClaim_of_scan hselector (by simp)
  · have hdecides : Decides _ _ .selector (Rule.selector.scan _) :=
      Rule.scan_cases hs.last (by simp)
    rcases hdecides with hnone | hclaim
    · simp [hselector] at hnone
    · rwa [hselector] at hclaim

/-- An opening brace after a selector ends the lead of the second run. -/
theorem follows_of_selector (hframes : base.map OpenBlock.frame = frames)
    (hsent : Sent (.moved origin) items items' base) (hs : s.Offered cs '{')
    (ht : t.Offered ds '{') (hface : s.Facing (.moved origin) t) {u u' : Token} {s' t' : State}
    (hfirst : State.firstClaim Rule.order.tail s = (some (.selector, .token u), s'))
    (hfirst' : State.firstClaim Rule.order.tail t = (some (.selector, .token u'), t'))
    (hclaim : Claim s '{' .selector (.token u) s') (hclaim' : Claim t '{' .selector (.token u') t')
    (hu : u.Like (.moved origin) u') (hlike : s'.Like (.moved origin) base t') :
    Follows origin frames
      (items ++ (State.scanPasses '{' 7 Rule.order.tail s).1.items)
      (items' ++ (State.scanPasses '{' 7 Rule.order.tail t).1.items)
      (State.scanPasses '{' 7 Rule.order.tail s).2
      (State.scanPasses '{' 7 Rule.order.tail t).2 := by
  have hposition : (Likeness.moved origin).position s'.position t'.position := by
    rw [hclaim.position_eq, hclaim'.position_eq]
    exact hface.position
  obtain ⟨v, base', hv, htype, hframes', hsent', -, hagain, hface'⟩ :=
    hsent.complete hlike hposition (.token hu) rfl '{'
  obtain rfl : u' = v := by simpa [Outcome.token?] using hv
  have htype' : u.type = .selector := by
    cases hclaim
    rfl
  have hs' := hclaim.offeredAgain hs rfl
  have ht' := hclaim'.offeredAgain ht rfl
  have hmore := hagain.follows 6 (State.lineEnding_not_mem_rescanRules .selector)
    (hframes'.trans hframes) hsent' hface' hs'.toOffered ht'.toOffered
    (State.sameStart_of_visible hs'.window hs'.last (by decide))
  obtain ⟨hitems, hstate⟩ := State.scanPasses_of_handoff (c := '{') 6 hfirst rfl
    (by simp [htype'])
  obtain ⟨hitems', hstate'⟩ := State.scanPasses_of_handoff (c := '{') 6 hfirst' rfl
    (by simp [← htype, htype'])
  rw [hitems, hstate, hitems', hstate']
  simpa [List.append_assoc] using hmore

/-- Without a selector at its end, what is pending is reported by the first run sooner or later, or
the second stays ahead. -/
theorem follows_of_unclaimed (hframes : base.map OpenBlock.frame = frames)
    (hsent : Sent (.moved origin) items items' base) (h : s.Beside (.moved origin) base t)
    (hs : s.Offered cs c) (ht : t.Offered ds c) (hblocks : s.blocks = [])
    (hcurrent : s.current = none) {o : OpenToken} {name : String} (ho : t.current = some o)
    (hkind : o.kind = .property name) (hskip : Rule.comment.scan s = (.skip, s))
    (hskip' : Rule.comment.scan t = (.skip, t)) (hselector : Rule.selector.scan s = (.skip, s)) :
    Follows origin frames
      (items ++ (State.scanPasses c 7 Rule.order.tail s).1.items)
      (items' ++ (State.scanPasses c 7 Rule.order.tail t).1.items)
      (State.scanPasses c 7 Rule.order.tail s).2 (State.scanPasses c 7 Rule.order.tail t).2 := by
  have hcomment := hs.comment_eq_none hskip
  have hcomment' := ht.comment_eq_none hskip'
  have hvisible : ∃ cell ∈ s.window.body, cell.isVisible = true := by
    obtain ⟨cell, hcell, hvisible⟩ := (ht.exists_visible ho hkind hcomment').1
    have hmem : cell.char ∈ t.bodyText := List.mem_map_of_mem hcell
    rw [← h.bodyText_eq] at hmem
    obtain ⟨cell', hcell', hchar⟩ := List.mem_map.1 hmem
    exact ⟨cell', hcell', by simpa [Cell.isVisible, hchar] using hvisible⟩
  have hatRule : Rule.atRule.scan s = (.skip, s) := by
    have hdecides : Decides s _ .atRule (Rule.atRule.scan s) := Rule.scan_cases hs.last (by simp)
    rcases hdecides with hnone | hclaim
    · exact hnone
    · exact absurd rfl
        (hclaim.unclaimed hs hblocks hcurrent hvisible (by simp) (by simp)).1
  -- of the rules that are left, one may report what is pending; else only the inner run, which has
  -- a declaration open, could do anything about the character
  have hfirst : State.firstClaim Rule.order.tail s =
      State.firstClaim [.property, .block, .whitespace] s := by
    have horder : Rule.order.tail =
        [.comment, .atRule, .selector, .property, .block, .whitespace] := rfl
    rw [horder, firstClaim_of_skip hskip, firstClaim_of_skip hatRule, firstClaim_of_skip hselector]
  have hfirst' : State.firstClaim Rule.order.tail t = State.firstClaim Rule.order.tail.tail t :=
    firstClaim_of_skip hskip'
  rcases firstClaim_cases [.property, .block, .whitespace] hs.last (by decide) with
    ⟨hnone, -⟩ | ⟨rule, outcome, s', hrule, hsome, hclaim⟩
  · by_cases hend : Text.IsEnd c
    · refine Or.inl (Or.inr ?_)
      simpa [State.scanPasses, hfirst, hnone] using hs.stuck hblocks hcurrent hcomment (Or.inl hend)
    · rcases firstClaim_cases Rule.order.tail.tail ht.last (by decide) with
        ⟨hnone', -⟩ | ⟨rule, outcome, t', hrule, -, hclaim'⟩
      · simp only [State.scanPasses, hfirst, hnone, hfirst', hnone', List.append_nil]
        exact Or.inr (Or.inr ⟨base, hframes, hsent, h, hblocks, hcurrent, o, name, ho, hkind⟩)
      · refine absurd (hclaim'.isEnd_of_property ho hkind ?_) hend
        rintro rfl
        exact absurd hrule (by decide)
  · have hother : rule ≠ .comment ∧ rule ≠ .selector := by
      constructor <;> rintro rfl <;> exact absurd hrule (by decide)
    obtain ⟨-, htoken, hfound⟩ :=
      hclaim.unclaimed hs hblocks hcurrent hvisible hother.1 hother.2
    refine Or.inl (Or.inl ?_)
    simp only [State.scanPasses, hfirst, hsome, htoken, findingsOf_append, ne_eq,
      List.append_eq_nil_iff, not_and]
    exact fun _ => hfound

/-- Where the second run is ahead, a brace after a selector brings the runs together, or the first
has something to report, or the second stays ahead. -/
theorem Ahead.scanPasses (h : Ahead origin frames items items' s t) (hs : s.Offered cs c)
    (ht : t.Offered ds c) (hface : s.Facing (.moved origin) t) :
    Follows origin frames
      (items ++ (State.scanPasses c 7 Rule.order.tail s).1.items)
      (items' ++ (State.scanPasses c 7 Rule.order.tail t).1.items)
      (State.scanPasses c 7 Rule.order.tail s).2 (State.scanPasses c 7 Rule.order.tail t).2 := by
  obtain ⟨base, hframes, hsent, h, hblocks, hcurrent, o, name, ho, hkind⟩ := h
  rcases h.comment_cases hs ht ho hkind with
    ⟨hskip, hskip'⟩ | ⟨s', t', hscan, hscan', hbeside, hblocks', hcurrent', ho'⟩
  · have hunclaimed (hselector : Rule.selector.scan s = (.skip, s)) :=
      follows_of_unclaimed hframes hsent h hs ht hblocks hcurrent ho hkind hskip hskip' hselector
    by_cases hc : c = '{'
    · subst hc
      rcases h.takeSelector with ⟨hnone, -⟩ | ⟨u, u', s', t', htake, htake', hu, hlike⟩
      · apply hunclaimed
        simp [Rule.scan, hs.last, hs.comment_eq_none hskip, State.scanSelector, State.currentType,
          hcurrent, hnone]
      · -- the text is a selector to both, so the declaration is given up
        obtain ⟨hfirst, hclaim⟩ := claim_of_takeSelector hs hskip (Or.inl hcurrent) htake
        obtain ⟨hfirst', hclaim'⟩ :=
          claim_of_takeSelector ht hskip' (Or.inr ⟨o, name, ho, hkind⟩) htake'
        exact follows_of_selector hframes hsent hs ht hface hfirst hfirst' hclaim hclaim' hu hlike
    · apply hunclaimed
      simp [Rule.scan, hs.last, hs.comment_eq_none hskip, State.scanSelector, hc]
  · have hfirst : State.firstClaim Rule.order.tail s = (some (.comment, .consumed), s') :=
      firstClaim_of_scan hscan (by simp)
    have hfirst' : State.firstClaim Rule.order.tail t = (some (.comment, .consumed), t') :=
      firstClaim_of_scan hscan' (by simp)
    simp only [State.scanPasses, hfirst, hfirst', Outcome.token?, Outcome.finding?,
      Option.toList_none, List.map_nil, List.append_nil]
    exact Or.inr (Or.inr ⟨base, hframes, hsent, hbeside, hblocks'.trans hblocks,
      hcurrent'.trans hcurrent, o, name, ho'.trans ho, hkind⟩)

end Step

/-! ## A text -/

section Run

variable {items items' : List Item} {cs ds : List Char}

/-- The second run goes on following over a character. The first character of a source is special,
as it may begin indentation. -/
theorem Follows.scan
    (h : Follows origin frames items items' (State.after {} cs) (State.after {} ds)) {c : Char}
    (hstart : cs ≠ [] ∧ ds ≠ [] ∨
      ((State.after {} cs).arrive c).SameStart ((State.after {} ds).arrive c)) :
    Follows origin frames (items ++ ((State.after {} cs).scan c).1.items)
      (items' ++ ((State.after {} ds).scan c).1.items) ((State.after {} cs).scan c).2
      ((State.after {} ds).scan c).2 := by
  have hs := (State.settled_after cs).arrive c
  have ht := (State.settled_after ds).arrive c
  rcases h with hreported | ⟨base, hframes, hsent, hlike⟩ | ⟨base, hframes, hsent, hbeside, hahead⟩
  · exact Or.inl (hreported.scan c)
  · have hstart' : ((State.after {} cs).arrive c).SameStart ((State.after {} ds).arrive c) := by
      rcases hstart with ⟨hcs, hds⟩ | hstart
      · exact hlike.sameStart_arrive hcs hds
      · exact hstart
    rw [(State.scan_eq _ c).1, (State.scan_eq _ c).1, (State.scan_eq _ c).2, (State.scan_eq _ c).2]
    exact (hlike.arrive c).follows 7 State.lineEnding_not_mem_tail hframes hsent
      hlike.toBeside.facing_arrive hs ht hstart'
  · rw [(State.scan_eq _ c).1, (State.scan_eq _ c).1, (State.scan_eq _ c).2, (State.scan_eq _ c).2]
    exact Ahead.scanPasses ⟨base, hframes, hsent, hbeside.arrive c, hahead⟩ hs ht
      hbeside.facing_arrive

/-- Where a run follows another, it follows it over any text. -/
theorem Follows.after
    (h : Follows origin frames items items' (State.after {} cs) (State.after {} ds)) (hcs : cs ≠ [])
    (hds : ds ≠ []) (es : List Char) :
    Follows origin frames (items ++ (State.after {} cs).itemsOf es)
      (items' ++ (State.after {} ds).itemsOf es) (State.after {} (cs ++ es))
      (State.after {} (ds ++ es)) := by
  induction es using List.reverseRecOn with
  | nil => simpa using h
  | append_singleton es c ih =>
    have hstep := ih.scan (c := c) (Or.inl ⟨by simp [hcs], by simp [hds]⟩)
    simpa [State.after_append, State.itemsOf_append, List.append_assoc] using hstep

end Run

end Stylesheet.Scan
