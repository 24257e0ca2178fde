import Stylesheet.Proofs.Likeness
import Stylesheet.Proofs.Scan.Past

set_option autoImplicit false

/-! # States that are alike

Two states that are alike (`State.Like`) offer a character to the rules alike: the same rule claims
it, with corresponding outcomes, and the states it leaves behind are alike again
(`State.Like.firstClaim`). The second state may be in blocks that the first knows nothing about, its
`base`. Only where the first state is in no block and the second is in one can the two part, at a
colon, a semicolon or a closing brace (`State.Aligned`). -/

namespace Stylesheet.Scan

variable {L : Likeness}

namespace State

/-- The states are alike but for the open token. The second one is in the blocks `base` besides. -/
structure Beside (L : Likeness) (base : List OpenBlock) (s t : State) : Prop where
  next : L.position s.next t.next
  window : s.window.Like L t.window
  comment : Option.Rel (OpenComment.Like L) s.comment t.comment
  blocks : ∃ inner, t.blocks = inner ++ base ∧ List.Forall₂ (OpenBlock.Like L) s.blocks inner
  nextId : L.id s.nextId t.nextId

/-- The states are alike. -/
structure Like (L : Likeness) (base : List OpenBlock) (s t : State) : Prop
    extends Beside L base s t where
  current : Option.Rel (OpenToken.Like L) s.current t.current

/-- The states scan characters at corresponding positions, which have finished corresponding
headers. -/
structure Facing (L : Likeness) (s t : State) : Prop where
  position : L.position s.position t.position
  header : Option.Rel L.position s.header? t.header?

/-- Blanks that may become indentation are at the beginning of the source in both states or in
neither. -/
def SameStart (s t : State) : Prop :=
  s.current = none → s.window.isBlank = true → s.window.lineBreak = none →
    (s.window.start? = some .start ↔ t.window.start? = some .start)

/-- The character means the same to both states: if only the second is in a block, it is none that
matters there with nothing open. -/
def Aligned (s t : State) (c : Char) : Prop :=
  s.blocks = [] → t.blocks = [] ∨ s.current ≠ none ∨ c ≠ ':' ∧ c ≠ ';' ∧ c ≠ '}'

end State

/-- A rule has come to corresponding results. -/
def Results (L : Likeness) (base : List OpenBlock) (r r' : Outcome × State) : Prop :=
  r.1.Like L r'.1 ∧ r.2.Like L base r'.2

namespace State

variable {base : List OpenBlock} {s t : State} {c : Char}

/-! ## What the rules look at -/

namespace Beside

variable (h : s.Beside L base t)

include h

theorem bodyText_eq : s.bodyText = t.bodyText := Cell.text_eq_of_like h.window.body

theorem trimmedBody_eq : s.trimmedBody = t.trimmedBody := by
  rw [trimmedBody, trimmedBody, h.bodyText_eq]

theorem bodyStop (hface : s.Facing L t) : L.position s.bodyStop t.bodyStop := by
  unfold State.bodyStop
  rcases Cell.span?_of_like h.window.body with ⟨hnone, hnone'⟩ | ⟨_, _, _, _, hs, ht, -, hstop⟩
  · rw [hnone, hnone']
    exact hface.position
  · rw [hs, ht]
    exact hstop

theorem headerStart (hface : s.Facing L t) : L.position s.headerStart t.headerStart := by
  rw [State.headerStart_eq, State.headerStart_eq]
  rcases eq_none_or_some_of_rel hface.header with ⟨hnone, hnone'⟩ | ⟨_, _, hs, ht, hstart⟩
  · rw [hnone, hnone']
    rcases Cell.span?_of_like h.window.body with ⟨hs, ht⟩ | ⟨_, _, _, _, hs, ht, hstart, -⟩
    · rw [hs, ht]
      exact hface.position
    · rw [hs, ht]
      exact hstart
  · rw [hs, ht]
    exact hstart

theorem clearWindow : s.clearWindow.Beside L base t.clearWindow :=
  ⟨h.next, Window.like_empty, h.comment, h.blocks, h.nextId⟩

end Beside

theorem Like.currentType_eq (h : s.Like L base t) : s.currentType = t.currentType := by
  unfold currentType
  rcases eq_none_or_some_of_rel h.current with ⟨hs, ht⟩ | ⟨o, o', hs, ht, ho⟩
  · rw [hs, ht]
  · rw [hs, ht, Option.map_some, Option.map_some, ho.kind_eq]

theorem Like.withoutCurrent (h : s.Beside L base t) :
    { s with current := none }.Like L base { t with current := none } :=
  ⟨⟨h.next, h.window, h.comment, h.blocks, h.nextId⟩, .none⟩

theorem Like.openToken (h : s.Beside L base t) (kind : OpenKind) {start start' : Position}
    (hstart : L.position start start') :
    (s.openToken kind start).Like L base (t.openToken kind start') :=
  ⟨⟨h.next, h.window, h.comment, h.blocks, L.succ h.nextId⟩, .some ⟨h.nextId, rfl, hstart⟩⟩

theorem Like.openBlock (h : s.Like L base t) {start start' header header' : Position}
    (hstart : L.position start start') (hheader : L.position header header') :
    (s.openBlock start header).Like L base (t.openBlock start' header') := by
  obtain ⟨inner, hblocks, hinner⟩ := h.blocks
  have hopened : OpenBlock.Like L ⟨s.nextId, start, header, []⟩ ⟨t.nextId, start', header', []⟩ :=
    ⟨h.nextId, hstart, hheader, .nil⟩
  exact ⟨⟨h.next, h.window, h.comment,
    ⟨_, by rw [State.blocks_openBlock, hblocks, List.cons_append], .cons hopened hinner⟩,
    L.succ h.nextId⟩, h.current⟩

/-! ## Rule by rule -/

theorem Like.skip (h : s.Like L base t) : Results L base (.skip, s) (.skip, t) := ⟨.skip, h⟩

/-- The rule for comments looks at the open token only to see that there is one. -/
theorem Beside.scanComment (h : s.Beside L base t)
    (hopen : s.comment = none → ∀ star slash before, s.window.recent = star :: slash :: before →
      slash.char = '/' → (s.current.isSome || !Text.allBlank (Cell.text before.reverse)) =
        (t.current.isSome || !Text.allBlank (Cell.text before.reverse))) :
    s.scanComment.1.Like L t.scanComment.1 ∧ s.scanComment.2.Beside L base t.scanComment.2 ∧
      s.scanComment.2.current = s.current ∧ t.scanComment.2.current = t.current := by
  unfold State.scanComment
  rcases eq_none_or_some_of_rel h.comment with ⟨hk, hk'⟩ | ⟨k, k', hk, hk', hkk⟩
  · simp only [hk, hk']
    have hskip : Outcome.Like L .skip .skip ∧ s.Beside L base t ∧ s.current = s.current ∧
        t.current = t.current := ⟨.skip, h, rfl, rfl⟩
    have hrecent := h.window.recent
    unfold beginComment
    cases hs : s.window.recent with
    | nil =>
      rw [hs] at hrecent
      rw [List.forall₂_nil_left_iff.1 hrecent]
      exact hskip
    | cons star before =>
      rw [hs] at hrecent
      obtain ⟨star', rest', hstar, hrest, ht⟩ := List.forall₂_cons_left_iff.1 hrecent
      cases before with
      | nil =>
        rw [ht, List.forall₂_nil_left_iff.1 hrest]
        exact hskip
      | cons slash before =>
        obtain ⟨slash', before', hslash, hbefore, rfl⟩ := List.forall₂_cons_left_iff.1 hrest
        rw [ht]
        dsimp only
        rw [← hstar.1, ← hslash.1, ← Cell.text_eq_of_like (List.rel_reverse hbefore)]
        by_cases hchars : star.char = '*' ∧ slash.char = '/'
        · rw [if_pos hchars, if_pos hchars]
          cases hquiet : Text.insideString (Cell.text before.reverse) ||
            Text.insideUrl (Cell.text before.reverse)
          · refine ⟨.consumed, ⟨h.next, h.window, .some ⟨?_, h.nextId, hslash.2, ?_⟩, h.blocks,
              L.succ h.nextId⟩, rfl, rfl⟩
            · rw [h.window.bytes_eq]
            · exact hopen hk star slash before hs hchars.2
          · exact hskip
        · rw [if_neg hchars, if_neg hchars]
          exact hskip
  · simp only [hk, hk', continueComment]
    rw [← h.window.bytes_eq, ← h.window.endsIn_eq, ← hkk.offset_eq, ← hkk.embedded_eq]
    split
    · exact ⟨.consumed, h, rfl, rfl⟩
    · split
      · exact ⟨.consumed, ⟨h.next, h.window.truncate _, .none, h.blocks, h.nextId⟩, rfl, rfl⟩
      · have htext : s.commentText k.offset = t.commentText k.offset := by
          rw [commentText, commentText, h.window.bytes_eq, h.window.text_eq]
        rw [htext]
        exact ⟨.token (hkk.close _ h.next), ⟨h.next, h.window, .none, h.blocks, h.nextId⟩, rfl, rfl⟩

theorem Like.scanComment (h : s.Like L base t) : Results L base s.scanComment t.scanComment := by
  have hopen := isSome_eq_of_rel h.current
  obtain ⟨houtcome, hbeside, hs, ht⟩ := h.toBeside.scanComment (by simp [hopen])
  refine ⟨houtcome, hbeside, ?_⟩
  rw [hs, ht]
  exact h.current

theorem Like.scanAtRule (h : s.Like L base t) (hface : s.Facing L t) :
    Results L base (s.scanAtRule c) (t.scanAtRule c) := by
  unfold State.scanAtRule
  rcases eq_none_or_some_of_rel h.current with ⟨hs, ht⟩ | ⟨o, o', hs, ht, ho⟩
  · simp only [hs, ht, ← h.window.text_eq]
    split
    · exact ⟨.consumed, .openToken h.toBeside _ hface.position⟩
    · exact h.skip
  · simp only [hs, ht, ← ho.kind_eq, closeAtRule, ← h.bodyText_eq]
    split
    · split
      · exact h.skip
      · split
        · exact h.skip
        · refine ⟨.token (ho.close (by simp [Leaf.type]) ?_), .withoutCurrent h.toBeside⟩
          split
          · exact h.bodyStop hface
          · exact h.next
    · exact h.skip

/-- A selector is taken whatever looks like being open. -/
theorem Beside.takeSelector (h : s.Beside L base t) :
    s.takeSelector = (.skip, s) ∧ t.takeSelector = (.skip, t) ∨
      ∃ u u' s' t', s.takeSelector = (.token u, s') ∧ t.takeSelector = (.token u', t') ∧
        u.Like L u' ∧ s'.Like L base t' := by
  unfold State.takeSelector
  simp only [← h.bodyText_eq]
  split
  · exact Or.inl ⟨rfl, rfl⟩
  · rcases Cell.span?_of_like h.window.body with ⟨hs, ht⟩ | ⟨_, _, _, _, hs, ht, hstart, hstop⟩
    · exact Or.inl (by simp [hs, ht])
    · simp only [hs, ht]
      exact Or.inr ⟨_, _, _, _, rfl, rfl,
        like_ofLeaf h.nextId (.selector _ (h.window.anchors _ _)) hstart hstop,
        ⟨h.next, h.window, h.comment, h.blocks, L.succ h.nextId⟩, .none⟩

theorem Like.scanSelector (h : s.Like L base t) :
    Results L base (s.scanSelector c) (t.scanSelector c) := by
  have htake : Results L base s.takeSelector t.takeSelector := by
    rcases h.toBeside.takeSelector with ⟨hs, ht⟩ | ⟨u, u', s', t', hs, ht, hu, hlike⟩
    · rw [hs, ht]
      exact h.skip
    · rw [hs, ht]
      exact ⟨.token hu, hlike⟩
  unfold State.scanSelector
  rw [← h.currentType_eq]
  split
  · exact h.skip
  · split
    · exact htake
    · exact htake
    · exact h.skip

theorem Like.scanProperty (h : s.Like L base t) (hface : s.Facing L t)
    (haligned : s.Aligned t c)
    (hblock : ∀ o name, s.current = some o → o.kind = .property name → s.blocks ≠ []) :
    Results L base (s.scanProperty c) (t.scanProperty c) := by
  obtain ⟨inner, hblocks, hinner⟩ := h.blocks
  have hmain (hne : s.blocks ≠ []) : Results L base (s.scanProperty c) (t.scanProperty c) := by
    have hne' : t.blocks ≠ [] := by
      intro hnil
      rw [hblocks] at hnil
      rw [(List.append_eq_nil_iff.1 hnil).1] at hinner
      exact hne (List.forall₂_nil_right_iff.1 hinner)
    have hempty : s.blocks.isEmpty = false := by simpa using hne
    have hempty' : t.blocks.isEmpty = false := by simpa using hne'
    unfold State.scanProperty
    simp only [hempty, hempty', Bool.false_eq_true, if_false]
    rcases eq_none_or_some_of_rel h.current with ⟨hs, ht⟩ | ⟨o, o', hs, ht, ho⟩
    · simp only [hs, ht]
      split
      · unfold beginProperty
        rw [← h.window.text_eq]
        split
        · exact h.skip
        · refine ⟨.consumed, .openToken h.toBeside _ ?_⟩
          rcases Cell.span?_of_like h.window.cells with
            ⟨hspan, hspan'⟩ | ⟨_, _, _, _, hspan, hspan', hstart, -⟩
          · rw [hspan, hspan']
            exact hface.position
          · rw [hspan, hspan']
            exact hstart
      · split
        · unfold rejectContent
          rw [← h.bodyText_eq, ← h.trimmedBody_eq]
          split
          · exact h.skip
          · have hcleared : s.clearWindow.Like L base t.clearWindow :=
              ⟨h.toBeside.clearWindow, h.current⟩
            rcases Cell.span?_of_like h.window.body with
              ⟨hspan, hspan'⟩ | ⟨_, _, _, _, hspan, hspan', hstart, hstop⟩
            · rw [hspan, hspan']
              exact ⟨.consumed, hcleared⟩
            · rw [hspan, hspan']
              exact ⟨.finding (like_spanning _ hstart hstop), hcleared⟩
        · exact h.skip
    · simp only [hs, ht, ← ho.kind_eq]
      split
      · unfold closeProperty
        rw [← h.bodyText_eq]
        split
        · exact h.skip
        · split
          · exact h.skip
          · refine ⟨.token (ho.close (by simp [Leaf.type]) ?_), .withoutCurrent h.toBeside⟩
            split
            · exact h.next
            · exact h.bodyStop hface
      · exact h.skip
  by_cases hnil : s.blocks = []
  · have hs : s.scanProperty c = (.skip, s) := by simp [State.scanProperty, hnil]
    have ht : t.scanProperty c = (.skip, t) := by
      rcases eq_none_or_some_of_rel h.current with ⟨hs, ht⟩ | ⟨o, o', hs, ht, ho⟩
      · rcases haligned hnil with hnil' | hcurrent | hc
        · simp [State.scanProperty, hnil']
        · exact absurd hs hcurrent
        · simp [State.scanProperty, ht, hc.1, hc.2.1]
      · -- outside all blocks no declaration is open
        simp only [State.scanProperty, ht]
        split
        · rfl
        · split
          · next name hname => exact absurd hnil (hblock o name hs (ho.kind_eq.trans hname))
          · rfl
    rw [hs, ht]
    exact h.skip
  · exact hmain hnil

theorem Like.beginBlock (h : s.Like L base t) (hface : s.Facing L t) :
    Results L base s.beginBlock t.beginBlock := by
  have hopened := h.openBlock hface.position (h.headerStart hface)
  have hcleared := State.Like.mk hopened.toBeside.clearWindow hopened.current
  unfold State.beginBlock
  rw [← h.bodyText_eq]
  split
  · exact h.skip
  · rcases Cell.span?_of_like h.window.body with
      ⟨hspan, hspan'⟩ | ⟨_, _, _, _, hspan, hspan', hstart, hstop⟩
    · simp only [hspan, hspan']
      exact ⟨.consumed, hcleared⟩
    · simp only [hspan, hspan']
      exact ⟨.finding (like_spanning _ hstart hstop), hcleared⟩

theorem Like.closeBlock (h : s.Like L base t) (hface : s.Facing L t)
    (hlevel : s.blocks = [] → t.blocks = []) : Results L base s.closeBlock t.closeBlock := by
  unfold State.closeBlock
  rw [← h.bodyText_eq, ← h.trimmedBody_eq]
  split
  · exact h.skip
  · obtain ⟨inner, hblocks, hinner⟩ := h.blocks
    have hcleared : s.clearWindow.Like L base t.clearWindow :=
      ⟨h.toBeside.clearWindow, h.current⟩
    cases hs : s.blocks with
    | nil =>
      have ht := hlevel hs
      rcases Cell.span?_of_like h.window.body with
        ⟨hspan, hspan'⟩ | ⟨_, _, _, _, hspan, hspan', hstart, hstop⟩
      · simp only [hspan, hspan', ht]
        exact ⟨.finding (like_spanning _ hface.position (Likeness.nextColumn hface.position)),
          hcleared⟩
      · simp only [hspan, hspan', ht]
        exact ⟨.finding (like_spanning _ hstart hstop), hcleared⟩
    | cons b blocks =>
      rw [hs] at hinner
      obtain ⟨b', around, hb, haround, rfl⟩ := List.forall₂_cons_left_iff.1 hinner
      have hclosed : { s with blocks }.Like L base { t with blocks := around ++ base } :=
        ⟨⟨h.next, h.window, h.comment, ⟨around, rfl, haround⟩, h.nextId⟩, h.current⟩
      rcases Cell.span?_of_like h.window.body with
        ⟨hspan, hspan'⟩ | ⟨_, _, _, _, hspan, hspan', hstart, hstop⟩
      · simp only [hspan, hspan', hblocks, List.cons_append]
        exact ⟨.token (hb.close h.next), hclosed⟩
      · simp only [hspan, hspan', hblocks, List.cons_append]
        exact ⟨.recovered (hb.close h.next) (like_spanning _ hstart hstop), hclosed⟩

theorem Like.scanBlock (h : s.Like L base t) (hface : s.Facing L t) (haligned : s.Aligned t c) :
    Results L base (s.scanBlock c) (t.scanBlock c) := by
  unfold State.scanBlock
  rw [← h.currentType_eq]
  split
  · next hcurrent =>
    split
    · exact h.beginBlock hface
    · split
      · next hc =>
        apply h.closeBlock hface
        intro hnil
        rcases haligned hnil with hnil' | hsome | hother
        · exact hnil'
        · exact absurd (current_of_currentType_eq_none hcurrent) hsome
        · exact absurd hc hother.2.2
      · exact h.skip
  · split
    · unfold abandonProperty
      rw [← h.bodyText_eq]
      split
      · exact h.skip
      · exact (Like.withoutCurrent h.toBeside).beginBlock ⟨hface.position, hface.header⟩
    · exact h.skip
  · exact h.skip

theorem Like.scanWhitespace (h : s.Like L base t) (hface : s.Facing L t) (hstart : s.SameStart t) :
    Results L base (s.scanWhitespace c) (t.scanWhitespace c) := by
  unfold State.scanWhitespace
  rcases eq_none_or_some_of_rel h.current with ⟨hs, ht⟩ | ⟨o, o', hs, ht, ho⟩
  · simp only [hs, ht]
    have hopened {w w' : Window} (hw : w.Like L w') :
        Results L base
          (.consumed, { s with window := w }.openToken .whitespace (w.start?.getD s.position))
          (.consumed,
            { t with window := w' }.openToken .whitespace (w'.start?.getD t.position)) := by
      have hbeside : { s with window := w }.Beside L base { t with window := w' } :=
        ⟨h.next, hw, h.comment, h.blocks, h.nextId⟩
      refine ⟨.consumed, .openToken hbeside _ ?_⟩
      rcases eq_none_or_some_of_rel hw.start? with ⟨hnone, hnone'⟩ | ⟨_, _, hfirst, hfirst', hp⟩
      · rw [hnone, hnone']
        exact hface.position
      · rw [hfirst, hfirst']
        exact hp
    unfold beginWhitespace
    rw [← h.window.isBlank_eq, ← h.window.lineBreak_eq]
    split
    · exact h.skip
    · next hblank =>
      simp only [Bool.or_eq_true, not_or, Bool.not_eq_true, Bool.not_eq_false'] at hblank
      dsimp only
      cases hbreak : s.window.lineBreak with
      | some offset => exact hopened (h.window.dropBefore offset)
      | none =>
        dsimp only
        have hiff := hstart hs hblank.2 hbreak
        by_cases hfirst : s.window.start? = some .start
        · rw [if_pos hfirst, if_pos (hiff.1 hfirst)]
          exact hopened h.window
        · rw [if_neg hfirst, if_neg (mt hiff.2 hfirst)]
          exact h.skip
  · simp only [hs, ht, ← ho.kind_eq, ← h.bodyText_eq]
    split
    · split
      · exact ⟨.consumed, h⟩
      · exact ⟨.token (ho.close (by simp [Leaf.type]) hface.position), .withoutCurrent h.toBeside⟩
    · exact h.skip

end State

section Passes

variable {base : List OpenBlock} {s t : State} {cs ds : List Char} {c : Char}

/-- Every rule comes to corresponding results in states that are alike. -/
theorem State.Like.rule_scan (h : s.Like L base t) (hface : s.Facing L t) (hs : s.Offered cs c)
    (ht : t.Offered ds c) (hstart : s.SameStart t) (haligned : s.comment = none → s.Aligned t c)
    {rule : Rule} (hrule : rule ≠ .lineEnding) :
    Results L base (rule.scan s) (rule.scan t) := by
  have hcomment : t.comment.isSome = s.comment.isSome := (isSome_eq_of_rel h.comment).symm
  unfold Rule.scan
  rw [hs.last, ht.last, hcomment]
  dsimp only
  split
  · exact h.skip
  · next hopen =>
    have hnone (hother : rule ≠ .comment) : s.comment = none := by simpa [hrule, hother] using hopen
    cases rule with
    | lineEnding => exact absurd rfl hrule
    | comment => exact h.scanComment
    | atRule => exact h.scanAtRule hface
    | selector => exact h.scanSelector
    | property =>
      exact h.scanProperty hface (haligned (hnone (by simp))) hs.coherent.inBlock
    | block => exact h.scanBlock hface (haligned (hnone (by simp)))
    | whitespace => exact h.scanWhitespace hface hstart

/-- The same rule claims the character in states that are alike, or none does. -/
theorem State.Like.firstClaim (h : s.Like L base t) (hface : s.Facing L t) (hs : s.Offered cs c)
    (ht : t.Offered ds c) (hstart : s.SameStart t) (haligned : s.comment = none → s.Aligned t c)
    (rules : List Rule) (hrules : Rule.lineEnding ∉ rules) :
    State.firstClaim rules s = (none, s) ∧ State.firstClaim rules t = (none, t) ∨
      ∃ rule outcome outcome' s' t', State.firstClaim rules s = (some (rule, outcome), s') ∧
        State.firstClaim rules t = (some (rule, outcome'), t') ∧ Claim s c rule outcome s' ∧
        Claim t c rule outcome' t' ∧ outcome.Like L outcome' ∧ s'.Like L base t' := by
  induction rules with
  | nil => exact Or.inl ⟨rfl, rfl⟩
  | cons rule rules ih =>
    simp only [List.mem_cons, not_or] at hrules
    have hresults := h.rule_scan hface hs ht hstart haligned (Ne.symm hrules.1)
    have hdecides := Rule.scan_cases hs.last (Ne.symm hrules.1)
    have hdecides' := Rule.scan_cases ht.last (Ne.symm hrules.1)
    simp only [State.firstClaim]
    revert hresults hdecides hdecides'
    generalize rule.scan s = r
    generalize rule.scan t = r'
    obtain ⟨outcome, s'⟩ := r
    obtain ⟨outcome', t'⟩ := r'
    rintro ⟨houtcome, hstates⟩ (hskip | hclaim) hdecides'
    · simp only [Prod.mk.injEq] at hskip
      obtain ⟨rfl, rfl⟩ := hskip
      cases houtcome
      rcases hdecides' with hskip' | hclaim'
      · simp only [Prod.mk.injEq, true_and] at hskip'
        rw [hskip']
        exact ih hrules.2
      · exact absurd rfl hclaim'.ne_skip
    · have hclaim' : Claim t c rule outcome' t' := by
        rcases hdecides' with hskip' | hclaim'
        · simp only [Prod.mk.injEq] at hskip'
          rw [hskip'.1] at houtcome
          cases houtcome
          exact absurd rfl hclaim.ne_skip
        · exact hclaim'
      refine Or.inr ⟨rule, outcome, outcome', s', t', ?_, ?_, hclaim, hclaim', houtcome, hstates⟩
      · cases outcome with
        | skip => exact absurd rfl hclaim.ne_skip
        | _ => rfl
      · cases outcome' with
        | skip => exact absurd rfl hclaim'.ne_skip
        | _ => rfl

end Passes

end Stylesheet.Scan
