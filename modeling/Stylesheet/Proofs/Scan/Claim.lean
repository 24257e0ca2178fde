import Stylesheet.Proofs.Cell
import Stylesheet.Scan.Run

set_option autoImplicit false

/-! # What a rule can do with a character

`Claim s c rule outcome s'` lists every way in which a rule can claim the character `c` at the end
of the window, with the conditions under which it does and the state it leaves behind. A rule that
claims nothing leaves the state alone (`Rule.scan_cases`). Everything that holds along a scan is
derived from these cases; `State.Preserves.scan` turns what one claim preserves into what
scanning one character preserves. -/

namespace Stylesheet.Scan

/-- The rule claims the last character of the window with the given outcome and leaves the given
state behind. -/
inductive Claim (s : State) (c : Char) : Rule → Outcome → State → Prop
  /-- The comment goes on. -/
  | inComment (k : OpenComment) (hk : s.comment = some k)
      (hopen : s.window.bytes < k.offset + 4 ∨ s.window.endsIn ['*', '/'] = false) :
      Claim s c .comment .consumed s
  /-- A comment among other text ends and is taken out of it. -/
  | stripComment (k : OpenComment) (hk : s.comment = some k) (hsize : k.offset + 4 ≤ s.window.bytes)
      (hends : s.window.endsIn ['*', '/'] = true) (hembedded : k.embedded = true) :
      Claim s c .comment .consumed
        { s with comment := none, window := s.window.truncate k.offset }
  /-- A comment that stands alone ends. -/
  | closeComment (k : OpenComment) (hk : s.comment = some k)
      (hsize : k.offset + 4 ≤ s.window.bytes) (hends : s.window.endsIn ['*', '/'] = true)
      (hembedded : k.embedded = false) :
      Claim s c .comment
        (.token (k.close (Payload.cleanComment (s.commentText k.offset)) s.next))
        { s with comment := none }
  | openComment (hk : s.comment = none) (star slash : Cell) (before : List Cell)
      (hrecent : s.window.recent = star :: slash :: before) (hstar : star.char = '*')
      (hslash : slash.char = '/') (hstring : Text.insideString (Cell.text before.reverse) = false)
      (hurl : Text.insideUrl (Cell.text before.reverse) = false) :
      Claim s c .comment .consumed
        (s.openComment (s.window.bytes - 2) slash.position
          (s.current.isSome || !Text.allBlank (Cell.text before.reverse)))
  | closeAtRule (hk : s.comment = none) (t : OpenToken) (hcurrent : s.current = some t)
      (hkind : t.kind = .atRule) (hc : c = ';' ∨ c = '{')
      (hstring : Text.insideString s.bodyText = false) (hparens : Text.openParens s.bodyText = 0) :
      Claim s c .atRule
        (.token (t.close (.atRule (Payload.splitAtRule s.bodyText).1
          (Payload.splitAtRule s.bodyText).2 (c = '{')) (if c = '{' then s.bodyStop else s.next)))
        { s with current := none }
  | openAtRule (hk : s.comment = none) (hcurrent : s.current = none) (hc : c = '@')
      (hsign : Payload.isAtSign s.window.text = true) :
      Claim s c .atRule .consumed (s.openToken .atRule s.position)
  | selector (hk : s.comment = none) (hc : c = '{')
      (hcurrent : s.current = none ∨ ∃ t name, s.current = some t ∧ t.kind = .property name)
      (hstring : Text.insideString s.bodyText = false)
      (hselector : Selector.isSelector (Text.trim s.bodyText) = true) (start stop : Position)
      (hspan : Cell.span? s.window.body = some (start, stop)) (anchors : List Anchor)
      (hanchors : anchors =
        let first := Text.byteSize s.bodyText - Text.byteSize (Text.trimStart s.bodyText)
        s.window.anchors first (first + Text.byteSize (Text.trim s.bodyText))) :
      Claim s c .selector
        (.token (.ofLeaf s.nextId (.selector (String.ofList (Text.trim s.bodyText)) anchors)
          start stop))
        { s with current := none, nextId := s.nextId + 1 }
  | openProperty (hk : s.comment = none) (hblocks : s.blocks ≠ []) (hcurrent : s.current = none)
      (hc : c = ':') (name : String) (hname : Payload.declarationName? s.window.text = some name)
      (start stop : Position) (hspan : Cell.span? s.window.cells = some (start, stop)) :
      Claim s c .property .consumed (s.openToken (.property name) start)
  | closeProperty (hk : s.comment = none) (hblocks : s.blocks ≠ []) (t : OpenToken)
      (hcurrent : s.current = some t) (name : String) (hkind : t.kind = .property name)
      (hc : c = ';' ∨ c = '}') (hstring : Text.insideString s.bodyText = false)
      (hparens : c = ';' → Text.openParens s.bodyText = 0) :
      Claim s c .property
        (.token (t.close (.property name (Payload.declarationValue? s.bodyText))
          (if c = ';' then s.next else s.bodyStop)))
        { s with current := none }
  | rejectBlank (hk : s.comment = none) (hblocks : s.blocks ≠ []) (hcurrent : s.current = none)
      (hc : c = ';') (hstring : Text.insideString s.bodyText = false)
      (hspan : Cell.span? s.window.body = none) :
      Claim s c .property .consumed s.clearWindow
  | rejectContent (hk : s.comment = none) (hblocks : s.blocks ≠ []) (hcurrent : s.current = none)
      (hc : c = ';') (hstring : Text.insideString s.bodyText = false) (start stop : Position)
      (hspan : Cell.span? s.window.body = some (start, stop)) :
      Claim s c .property (.finding (.spanning (.strayContent s.trimmedBody) start stop))
        s.clearWindow
  | openBlock (hk : s.comment = none) (hc : c = '{')
      (hcurrent : s.current = none ∨ ∃ t name, s.current = some t ∧ t.kind = .property name ∧
        Text.openParens s.bodyText = 0)
      (hstring : Text.insideString s.bodyText = false) (hspan : Cell.span? s.window.body = none) :
      Claim s c .block .consumed
        (({ s with current := none }.openBlock s.position s.headerStart).clearWindow)
  /-- A block is opened after text that is no header. -/
  | openUnclaimed (hk : s.comment = none) (hc : c = '{')
      (hcurrent : s.current = none ∨ ∃ t name, s.current = some t ∧ t.kind = .property name ∧
        Text.openParens s.bodyText = 0)
      (hstring : Text.insideString s.bodyText = false) (start stop : Position)
      (hspan : Cell.span? s.window.body = some (start, stop)) :
      Claim s c .block
        (.finding (.spanning (State.headerIssue (Text.trim s.bodyText)) start stop))
        (({ s with current := none }.openBlock s.position s.headerStart).clearWindow)
  | closeBlock (hk : s.comment = none) (hcurrent : s.current = none) (hc : c = '}')
      (hstring : Text.insideString s.bodyText = false) (hspan : Cell.span? s.window.body = none)
      (b : OpenBlock) (blocks : List OpenBlock) (hblocks : s.blocks = b :: blocks) :
      Claim s c .block (.token (b.close s.next)) { s with blocks }
  /-- A block is closed after text that is no declaration. -/
  | closeBlockAfter (hk : s.comment = none) (hcurrent : s.current = none) (hc : c = '}')
      (hstring : Text.insideString s.bodyText = false) (start stop : Position)
      (hspan : Cell.span? s.window.body = some (start, stop)) (b : OpenBlock)
      (blocks : List OpenBlock) (hblocks : s.blocks = b :: blocks) :
      Claim s c .block
        (.recovered (b.close s.next) (.spanning (.strayContent s.trimmedBody) start stop))
        { s with blocks }
  | strayBrace (hk : s.comment = none) (hcurrent : s.current = none) (hc : c = '}')
      (hstring : Text.insideString s.bodyText = false) (hspan : Cell.span? s.window.body = none)
      (hblocks : s.blocks = []) :
      Claim s c .block (.finding (.spanning .strayBrace s.position s.position.nextColumn))
        s.clearWindow
  | strayContent (hk : s.comment = none) (hcurrent : s.current = none) (hc : c = '}')
      (hstring : Text.insideString s.bodyText = false) (start stop : Position)
      (hspan : Cell.span? s.window.body = some (start, stop)) (hblocks : s.blocks = []) :
      Claim s c .block (.finding (.spanning (.strayContent s.trimmedBody) start stop))
        s.clearWindow
  | openWhitespace (hk : s.comment = none) (hcurrent : s.current = none)
      (hc : Text.isBlank c = true) (hblank : s.window.isBlank = true) (w : Window)
      (hw : (∃ offset, s.window.lineBreak = some offset ∧ w = s.window.dropBefore offset) ∨
        s.window.lineBreak = none ∧ s.window.start? = some .start ∧ w = s.window) :
      Claim s c .whitespace .consumed
        ({ s with window := w }.openToken .whitespace (w.start?.getD s.position))
  | inWhitespace (hk : s.comment = none) (t : OpenToken) (hcurrent : s.current = some t)
      (hkind : t.kind = .whitespace) (hc : Text.isBlank c = true) :
      Claim s c .whitespace .consumed s
  | closeWhitespace (hk : s.comment = none) (t : OpenToken) (hcurrent : s.current = some t)
      (hkind : t.kind = .whitespace) (hc : Text.isBlank c = false) :
      Claim s c .whitespace
        (.token (t.close (.whitespace (String.ofList s.bodyText)) s.position))
        { s with current := none }

/-- The rule leaves the character and the state alone, or claims the character. -/
def Decides (s : State) (c : Char) (rule : Rule) (result : Outcome × State) : Prop :=
  result = (.skip, s) ∨ Claim s c rule result.1 result.2

variable {s : State} {c : Char}

theorem Decides.skip (rule : Rule) : Decides s c rule (.skip, s) := Or.inl rfl

/-! ## Rule by rule -/

theorem scanComment_decides : Decides s c .comment s.scanComment := by
  unfold State.scanComment
  split
  · next k hk =>
    unfold State.continueComment
    split
    · next hopen => exact Or.inr (.inComment k hk hopen)
    · next hclosed =>
      simp only [not_or, Nat.not_lt, Bool.not_eq_false] at hclosed
      split
      · next hembedded => exact Or.inr (.stripComment k hk hclosed.1 hclosed.2 hembedded)
      · next hembedded =>
        rw [Bool.not_eq_true] at hembedded
        exact Or.inr (.closeComment k hk hclosed.1 hclosed.2 hembedded)
  · next hk =>
    unfold State.beginComment
    split
    · next star slash before hrecent =>
      split
      · next hchars =>
        dsimp only
        split
        · exact .skip _
        · next hquiet =>
          simp only [Bool.or_eq_true, not_or, Bool.not_eq_true] at hquiet
          exact Or.inr
            (.openComment hk star slash before hrecent hchars.1 hchars.2 hquiet.1 hquiet.2)
      · exact .skip _
    · exact .skip _

theorem scanAtRule_decides (hk : s.comment = none) : Decides s c .atRule (s.scanAtRule c) := by
  unfold State.scanAtRule
  split
  · next t hcurrent =>
    split
    · next hkind =>
      unfold State.closeAtRule
      split
      · exact .skip _
      · next hc =>
        split
        · exact .skip _
        · next hquiet =>
          simp only [not_or, Bool.not_eq_true, Nat.not_lt, Nat.le_zero] at hquiet
          have hc' : c = ';' ∨ c = '{' := Decidable.or_iff_not_not_and_not.2 hc
          exact Or.inr (.closeAtRule hk t hcurrent hkind hc' hquiet.1 hquiet.2)
    · exact .skip _
  · next hcurrent =>
    split
    · next h => exact Or.inr (.openAtRule hk hcurrent h.1 h.2)
    · exact .skip _

/-- An open token of type property is a declaration whose name has been read. -/
theorem current_of_currentType {s : State} (h : s.currentType = some .property) :
    ∃ t name, s.current = some t ∧ t.kind = .property name := by
  unfold State.currentType at h
  obtain ⟨t, ht, htype⟩ := Option.map_eq_some_iff.1 h
  cases hkind : t.kind with
  | property name => exact ⟨t, name, ht, hkind⟩
  | atRule => simp [hkind, OpenKind.type] at htype
  | whitespace => simp [hkind, OpenKind.type] at htype

theorem current_of_currentType_eq_none {s : State} (h : s.currentType = none) :
    s.current = none := by
  unfold State.currentType at h
  exact Option.map_eq_none_iff.1 h

theorem scanSelector_decides (hk : s.comment = none) :
    Decides s c .selector (s.scanSelector c) := by
  have htake (hc : c = '{')
      (hcurrent : s.current = none ∨ ∃ t name, s.current = some t ∧ t.kind = .property name) :
      Decides s c .selector s.takeSelector := by
    unfold State.takeSelector
    dsimp only
    split
    · exact .skip _
    · next hselector =>
      simp only [Bool.or_eq_true, not_or, Bool.not_eq_true, Bool.not_eq_false'] at hselector
      split
      · exact .skip _
      · next start stop hspan =>
        exact Or.inr (.selector hk hc hcurrent hselector.1 hselector.2 start stop hspan _ rfl)
  unfold State.scanSelector
  split
  · exact .skip _
  · next hc =>
    rw [ne_eq, not_not] at hc
    split
    · next hnone => exact htake hc (Or.inl (current_of_currentType_eq_none hnone))
    · next hproperty => exact htake hc (Or.inr (current_of_currentType hproperty))
    · exact .skip _

theorem cells_of_last? {w : Window} {c : Char} (h : w.last? = some c) :
    ∃ p, w.cells = w.body ++ [⟨c, p⟩] := by
  cases hr : w.recent with
  | nil => simp [Window.last?, hr] at h
  | cons cell rest =>
    simp only [Window.last?, hr, List.head?_cons, Option.map_some, Option.some.injEq] at h
    exact ⟨cell.position, by simp [Window.cells, Window.body, hr, ← h]⟩

theorem scanProperty_decides (hlast : s.window.last? = some c) (hk : s.comment = none) :
    Decides s c .property (s.scanProperty c) := by
  unfold State.scanProperty
  split
  · exact .skip _
  · next hblocks =>
    have hblocks' : s.blocks ≠ [] := by simpa using hblocks
    split
    · next t hcurrent =>
      split
      · next name hkind =>
        unfold State.closeProperty
        split
        · exact .skip _
        · next hc =>
          split
          · exact .skip _
          · next hquiet =>
            simp only [not_or, not_and, Bool.not_eq_true, Nat.not_lt, Nat.le_zero] at hquiet
            have hc' : c = ';' ∨ c = '}' := Decidable.or_iff_not_not_and_not.2 hc
            exact Or.inr
              (.closeProperty hk hblocks' t hcurrent name hkind hc' hquiet.1 hquiet.2)
      · exact .skip _
    · next hcurrent =>
      split
      · next hc =>
        unfold State.beginProperty
        split
        · exact .skip _
        · next name hname =>
          obtain ⟨p, hcells⟩ := cells_of_last? hlast
          cases hspan : Cell.span? s.window.cells with
          | none =>
            -- the colon itself is visible
            have hcolon := Cell.span?_eq_none_iff.1 hspan ⟨c, p⟩ (by simp [hcells])
            rw [hc] at hcolon
            exact absurd hcolon (by simp [Cell.isVisible]; decide)
          | some span =>
            exact Or.inr
              (.openProperty hk hblocks' hcurrent hc name hname span.1 span.2 hspan)
      · split
        · next hc =>
          unfold State.rejectContent
          split
          · exact .skip _
          · next hstring =>
            rw [Bool.not_eq_true] at hstring
            split
            · next hspan => exact Or.inr (.rejectBlank hk hblocks' hcurrent hc hstring hspan)
            · next start stop hspan =>
              exact Or.inr (.rejectContent hk hblocks' hcurrent hc hstring start stop hspan)
        · exact .skip _

theorem scanBlock_decides (hk : s.comment = none) : Decides s c .block (s.scanBlock c) := by
  -- opening a block looks the same with and without a declaration to abandon
  have hbegin (hc : c = '{')
      (hcurrent : s.current = none ∨ ∃ t name, s.current = some t ∧ t.kind = .property name ∧
        Text.openParens s.bodyText = 0)
      (hstring : Text.insideString s.bodyText = false) :
      Claim s c .block ({ s with current := none }.beginBlock).1
        ({ s with current := none }.beginBlock).2 := by
    have hstring' : Text.insideString { s with current := none }.bodyText = false := hstring
    unfold State.beginBlock
    rw [if_neg (by simp [hstring'])]
    dsimp only
    split
    · next hspan => exact .openBlock hk hc hcurrent hstring hspan
    · next start stop hspan => exact .openUnclaimed hk hc hcurrent hstring start stop hspan
  have hself (h : s.current = none) : { s with current := none } = s := by rw [← h]
  unfold State.scanBlock
  split
  · next hnone =>
    have hcurrent := current_of_currentType_eq_none hnone
    split
    · next hc =>
      by_cases hstring : Text.insideString s.bodyText = true
      · exact Or.inl (by simp [State.beginBlock, hstring])
      · have h := hbegin hc (Or.inl hcurrent) (by simpa using hstring)
        rw [hself hcurrent] at h
        exact Or.inr h
    · split
      · next hc =>
        unfold State.closeBlock
        split
        · exact .skip _
        · next hstring =>
          rw [Bool.not_eq_true] at hstring
          cases hspan : Cell.span? s.window.body with
          | none =>
            simp only [Option.map_none]
            split
            · next hblocks => exact Or.inr (.strayBrace hk hcurrent hc hstring hspan hblocks)
            · next b blocks hblocks =>
              exact Or.inr (.closeBlock hk hcurrent hc hstring hspan b blocks hblocks)
          | some span =>
            simp only [Option.map_some]
            split
            · next hblocks =>
              exact Or.inr (.strayContent hk hcurrent hc hstring span.1 span.2 hspan hblocks)
            · next b blocks hblocks =>
              exact Or.inr
                (.closeBlockAfter hk hcurrent hc hstring span.1 span.2 hspan b blocks hblocks)
      · exact .skip _
  · next hproperty =>
    split
    · next hc =>
      unfold State.abandonProperty
      split
      · exact .skip _
      · next hquiet =>
        simp only [not_or, Bool.not_eq_true, Nat.not_lt, Nat.le_zero] at hquiet
        obtain ⟨t, name, hcurrent, hkind⟩ := current_of_currentType hproperty
        exact Or.inr (hbegin hc (Or.inr ⟨t, name, hcurrent, hkind, hquiet.2⟩) hquiet.1)
    · exact .skip _
  · exact .skip _

theorem scanWhitespace_decides (hk : s.comment = none) :
    Decides s c .whitespace (s.scanWhitespace c) := by
  unfold State.scanWhitespace
  split
  · next t hcurrent =>
    split
    · next hkind =>
      split
      · next hc => exact Or.inr (.inWhitespace hk t hcurrent hkind hc)
      · next hc =>
        rw [Bool.not_eq_true] at hc
        exact Or.inr (.closeWhitespace hk t hcurrent hkind hc)
    · exact .skip _
  · next hcurrent =>
    unfold State.beginWhitespace
    split
    · exact .skip _
    · next hblank =>
      simp only [Bool.or_eq_true, not_or, Bool.not_eq_true, Bool.not_eq_false'] at hblank
      dsimp only
      split
      · next offset hbreak =>
        exact Or.inr
          (.openWhitespace hk hcurrent hblank.1 hblank.2 _ (Or.inl ⟨offset, hbreak, rfl⟩))
      · next hbreak =>
        split
        · next hstart =>
          exact Or.inr
            (.openWhitespace hk hcurrent hblank.1 hblank.2 _ (Or.inr ⟨hbreak, hstart, rfl⟩))
        · exact .skip _

/-- A rule other than that for line endings leaves everything alone or claims the character. -/
theorem Rule.scan_cases {rule : Rule} (hlast : s.window.last? = some c)
    (hrule : rule ≠ .lineEnding) : Decides s c rule (rule.scan s) := by
  unfold Rule.scan
  rw [hlast]
  dsimp only
  split
  · exact .skip _
  · next hcomment =>
    cases rule with
    | lineEnding => exact absurd rfl hrule
    | comment => exact scanComment_decides
    | atRule => exact scanAtRule_decides (by simpa using hcomment)
    | selector => exact scanSelector_decides (by simpa using hcomment)
    | property => exact scanProperty_decides hlast (by simpa using hcomment)
    | block => exact scanBlock_decides (by simpa using hcomment)
    | whitespace => exact scanWhitespace_decides (by simpa using hcomment)

/-! ## Passes -/

theorem Claim.ne_skip {rule : Rule} {outcome : Outcome} {s' : State}
    (h : Claim s c rule outcome s') : outcome ≠ .skip := by
  cases h <;> simp

theorem firstClaim_of_skip {rule : Rule} {rules : List Rule} (h : rule.scan s = (.skip, s)) :
    State.firstClaim (rule :: rules) s = State.firstClaim rules s := by
  simp [State.firstClaim, h]

theorem firstClaim_of_scan {rule : Rule} {rules : List Rule} {outcome : Outcome} {s' : State}
    (h : rule.scan s = (outcome, s')) (hne : outcome ≠ .skip) :
    State.firstClaim (rule :: rules) s = (some (rule, outcome), s') := by
  unfold State.firstClaim
  rw [h]
  cases outcome with
  | skip => exact absurd rfl hne
  | _ => rfl

/-- Either all rules leave the character alone or the first of them that does not claims it. -/
theorem firstClaim_cases (rules : List Rule) (hlast : s.window.last? = some c)
    (hrules : Rule.lineEnding ∉ rules) :
    (State.firstClaim rules s = (none, s) ∧ ∀ rule ∈ rules, rule.scan s = (.skip, s)) ∨
      ∃ rule outcome s', rule ∈ rules ∧ State.firstClaim rules s = (some (rule, outcome), s') ∧
        Claim s c rule outcome s' := by
  induction rules with
  | nil => exact Or.inl ⟨rfl, by simp⟩
  | cons rule rules ih =>
    simp only [List.mem_cons, not_or] at hrules
    rcases Rule.scan_cases hlast (Ne.symm hrules.1) with hskip | hclaim
    · rw [firstClaim_of_skip hskip]
      rcases ih hrules.2 with ⟨hnone, hall⟩ | ⟨other, outcome, s', hmem, hfirst, hclaim⟩
      · refine Or.inl ⟨hnone, ?_⟩
        intro other hother
        rcases List.mem_cons.1 hother with rfl | hother
        · exact hskip
        · exact hall other hother
      · exact Or.inr ⟨other, outcome, s', List.mem_cons_of_mem _ hmem, hfirst, hclaim⟩
    · exact Or.inr ⟨rule, (rule.scan s).1, (rule.scan s).2, List.mem_cons_self ..,
        firstClaim_of_scan rfl hclaim.ne_skip, hclaim⟩

/-- The items that a claim puts into the stream by itself. -/
def Outcome.found (outcome : Outcome) : List Item := outcome.finding?.toList.map Item.finding

namespace State

/-- The state in which the rules after that for line endings see the character `c`. -/
def arrive (s : State) (c : Char) : State :=
  { s with
    position := s.next
    next := s.next.advance c
    window := s.window.push c s.next }

theorem firstClaim_order (s : State) (c : Char) :
    firstClaim Rule.order (s.push c) = firstClaim Rule.order.tail (s.arrive c) := by
  have hscan : Rule.lineEnding.scan (s.push c) = (.skip, s.arrive c) := by
    by_cases hc : c = '\n'
    · simp [Rule.scan, scanLineEnding, push, arrive, advanceLine, Position.advance, hc]
    · simp [Rule.scan, scanLineEnding, push, arrive, Position.advance, hc]
  simp [Rule.order, firstClaim, hscan]

/-- What a character brings about is what the rules after that for line endings make of it. -/
theorem scan_eq (s : State) (c : Char) :
    (s.scan c).1.items = (scanPasses c 7 Rule.order.tail (s.arrive c)).1.items ∧
      (s.scan c).2 = (scanPasses c 7 Rule.order.tail (s.arrive c)).2 := by
  have hpasses : Rule.order.length = 6 + 1 := rfl
  rw [State.scan, hpasses, scanPasses, scanPasses, firstClaim_order]
  split
  · exact ⟨rfl, rfl⟩
  · next rule outcome s' _ =>
    cases outcome.token? with
    | none => exact ⟨rfl, rfl⟩
    | some u =>
      dsimp only
      split <;> exact ⟨rfl, rfl⟩

/-- A pass that finishes a token and hands the character on is followed by the others. -/
theorem scanPasses_of_handoff (passes : Nat) {rules : List Rule} {s s' : State} {rule : Rule}
    {outcome : Outcome} {t : Token} (hfirst : firstClaim rules s = (some (rule, outcome), s'))
    (ht : outcome.token? = some t) (hcontinues : continues t.type rule c = true) :
    (scanPasses c (passes + 1) rules s).1.items = outcome.found ++ (s'.complete t).1 ++
        (scanPasses c passes (rescanRules rule) ((s'.complete t).2.pushAgain c)).1.items ∧
      (scanPasses c (passes + 1) rules s).2 =
        (scanPasses c passes (rescanRules rule) ((s'.complete t).2.pushAgain c)).2 := by
  rw [scanPasses]
  simp [hfirst, ht, hcontinues, Outcome.found]

theorem lineEnding_not_mem_tail : Rule.lineEnding ∉ Rule.order.tail := by decide

theorem lineEnding_not_mem_rescanRules (rule : Rule) :
    Rule.lineEnding ∉ rescanRules rule := by
  cases rule <;> decide

/-- What every claim preserves while the character `c` is scanned. `First` is about the state in
which the character is offered for the first time, `Again` about one in which it is offered once
more, and `Done` about the state between two characters; each is about the items so far as well. -/
structure Preserves (c : Char) (First Again Done : List Item → State → Prop) : Prop where
  last : ∀ {items s}, First items s → s.window.last? = some c
  first_of_again : ∀ {items s}, Again items s → First items s
  done_of_again : ∀ {items s}, Again items s → Done items s
  done_of_skip : ∀ {items s}, First items s →
    (∀ rule ∈ Rule.order.tail, rule.scan s = (.skip, s)) → Done items s
  done_of_claim : ∀ {items s rule outcome s'}, First items s → Claim s c rule outcome s' →
    outcome.token? = none → Done (items ++ outcome.found) s'
  done_of_token : ∀ {items s rule outcome s' t}, First items s → Claim s c rule outcome s' →
    outcome.token? = some t → continues t.type rule c = false →
    Done (items ++ outcome.found ++ (s'.complete t).1) (s'.complete t).2
  again_of_token : ∀ {items s rule outcome s' t}, First items s → Claim s c rule outcome s' →
    outcome.token? = some t → continues t.type rule c = true →
    Again (items ++ outcome.found ++ (s'.complete t).1) ((s'.complete t).2.pushAgain c)

namespace Preserves

variable {First Again Done : List Item → State → Prop} (hp : Preserves c First Again Done)

include hp

/-- One pass that ends in a claim, given what the passes after it preserve. The state `s₀` it starts
from and the state `s` the claim is made in differ by the rule for line endings. -/
theorem scanPasses_of_claim {passes : Nat} {rules : List Rule} {items : List Item}
    {s₀ s s' : State} {rule : Rule} {outcome : Outcome}
    (hsome : firstClaim rules s₀ = (some (rule, outcome), s')) (h : First items s)
    (hclaim : Claim s c rule outcome s')
    (hmore : ∀ items s, Again items s →
      Done (items ++ (scanPasses c passes (rescanRules rule) s).1.items)
        (scanPasses c passes (rescanRules rule) s).2) :
    Done (items ++ (scanPasses c (passes + 1) rules s₀).1.items)
      (scanPasses c (passes + 1) rules s₀).2 := by
  simp only [scanPasses, hsome]
  cases ht : outcome.token? with
  | none => exact hp.done_of_claim h hclaim ht
  | some t =>
    dsimp only
    split
    · next hcontinues =>
      have hlater := hmore _ _ (hp.again_of_token h hclaim ht hcontinues)
      simpa [Outcome.found, List.append_assoc] using hlater
    · next hcontinues =>
      have hlast := hp.done_of_token h hclaim ht (Bool.not_eq_true _ ▸ hcontinues)
      simpa [Outcome.found, List.append_assoc] using hlast

theorem scanPasses_of_again (passes : Nat) {rules : List Rule} (hrules : Rule.lineEnding ∉ rules)
    (items : List Item) (s : State) (h : Again items s) :
    Done (items ++ (scanPasses c passes rules s).1.items) (scanPasses c passes rules s).2 := by
  induction passes generalizing rules items s with
  | zero => simpa [scanPasses] using hp.done_of_again h
  | succ passes ih =>
    have hfirst := hp.first_of_again h
    rcases firstClaim_cases rules (hp.last hfirst) hrules with
      ⟨hnone, -⟩ | ⟨rule, outcome, s', -, hsome, hclaim⟩
    · simpa [scanPasses, hnone] using hp.done_of_again h
    · exact hp.scanPasses_of_claim hsome hfirst hclaim (ih (lineEnding_not_mem_rescanRules rule))

/-- What every claim preserves, scanning a character preserves. -/
theorem scan (items : List Item) {s : State} (h : First items (s.arrive c)) :
    Done (items ++ (s.scan c).1.items) (s.scan c).2 := by
  have hpasses : Rule.order.length = 6 + 1 := rfl
  rw [State.scan, hpasses]
  rcases firstClaim_cases Rule.order.tail (hp.last h) lineEnding_not_mem_tail with
    ⟨hnone, hall⟩ | ⟨rule, outcome, s', -, hsome, hclaim⟩
  · simpa [scanPasses, firstClaim_order, hnone] using hp.done_of_skip h hall
  · rw [← firstClaim_order] at hsome
    exact hp.scanPasses_of_claim hsome h hclaim
      (hp.scanPasses_of_again 6 (lineEnding_not_mem_rescanRules rule))

end Preserves

end State

end Stylesheet.Scan
