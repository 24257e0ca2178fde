import Stylesheet.Proofs.Report
import Stylesheet.Proofs.Scan.Braces

set_option autoImplicit false

/-! # Blocks and matching braces

In a text without strings, parentheses, at-rules and comments the blocks are what the braces say:
every opening brace begins one, it ends at the brace that matches, and a block stands in another
just when the brace of the other is still open at its own (`Source.blocks_of_bare`). In a
well-formed run one token stands in another just when it begins within the span of the other, so
what is nested where can be read off the spans. -/

namespace Stylesheet

/-! ## Nesting and spans -/

section Within

variable {b b' u : Token}

mutual

theorem Token.within (t : Token) (h : t.Sound) (hu : u ∈ t.preorder) :
    t.start ≤ u.start ∧ u.stop ≤ t.stop := by
  cases t with
  | leaf place content =>
    rw [List.mem_singleton.1 hu]
    exact ⟨le_refl _, le_refl _⟩
  | block place ts =>
    obtain ⟨hself, hchildren⟩ := Token.sound_iff.1 h
    rcases List.mem_cons.1 hu with rfl | hu
    · exact ⟨le_refl _, le_refl _⟩
    · obtain ⟨v, hv, hstart, hstop⟩ := Token.exists_within ts hchildren hu
      obtain ⟨hstart', hstop'⟩ := hself.within v hv
      exact ⟨le_trans (le_of_lt hstart') hstart, le_trans hstop hstop'⟩

/-- What is nested in a token lies within its span. -/
theorem Token.exists_within (ts : List Token) (h : ∀ t ∈ ts, t.Sound)
    (hu : u ∈ Token.preorderAll ts) : ∃ v ∈ ts, v.start ≤ u.start ∧ u.stop ≤ v.stop := by
  cases ts with
  | nil => simp [Token.preorderAll] at hu
  | cons t ts =>
    rcases List.mem_append.1 hu with hu | hu
    · exact ⟨t, List.mem_cons_self .., Token.within t (h t (List.mem_cons_self ..)) hu⟩
    · obtain ⟨v, hv, hbounds⟩ :=
        Token.exists_within ts (fun t ht => h t (List.mem_cons_of_mem _ ht)) hu
      exact ⟨v, List.mem_cons_of_mem _ hv, hbounds⟩

end

mutual

theorem Token.mem_preorder_of_within (t : Token) (h : t.Sound) (hb : b ∈ t.preorder)
    (hb' : b' ∈ t.preorder) (hle : b.start ≤ b'.start) (hlt : b'.start < b.stop) :
    b' ∈ b.preorder := by
  cases t with
  | leaf place content =>
    rw [List.mem_singleton.1 hb]
    exact hb'
  | block place ts =>
    obtain ⟨hself, hchildren⟩ := Token.sound_iff.1 h
    rcases List.mem_cons.1 hb with rfl | hb
    · exact hb'
    · rcases List.mem_cons.1 hb' with rfl | hb'
      · obtain ⟨v, hv, hstart, -⟩ := Token.exists_within ts hchildren hb
        exact absurd (lt_of_lt_of_le (hself.within v hv).1 (le_trans hstart hle)) (lt_irrefl _)
      · exact Token.mem_preorder_of_withinAll ts hchildren hself.siblings.ordered hb hb' hle hlt

/-- A token that begins within the span of another stands in it. -/
theorem Token.mem_preorder_of_withinAll (ts : List Token) (h : ∀ t ∈ ts, t.Sound)
    (hordered : ts.Pairwise fun a b => a.stop ≤ b.start) (hb : b ∈ Token.preorderAll ts)
    (hb' : b' ∈ Token.preorderAll ts) (hle : b.start ≤ b'.start) (hlt : b'.start < b.stop) :
    b' ∈ b.preorder := by
  cases ts with
  | nil => simp [Token.preorderAll] at hb
  | cons t ts =>
    obtain ⟨hfirst, hrest⟩ := List.pairwise_cons.1 hordered
    have ht := h t (List.mem_cons_self ..)
    have hts : ∀ u ∈ ts, u.Sound := fun u hu => h u (List.mem_cons_of_mem _ hu)
    -- tokens of two different siblings have disjoint spans
    rcases List.mem_append.1 hb with hb | hb
    · rcases List.mem_append.1 hb' with hb' | hb'
      · exact Token.mem_preorder_of_within t ht hb hb' hle hlt
      · obtain ⟨v, hv, hstart, -⟩ := Token.exists_within ts hts hb'
        have hstop := le_trans (le_trans (Token.within t ht hb).2 (hfirst v hv)) hstart
        exact absurd (lt_of_lt_of_le hlt hstop) (lt_irrefl _)
    · rcases List.mem_append.1 hb' with hb' | hb'
      · obtain ⟨v, hv, hstart, -⟩ := Token.exists_within ts hts hb
        have hstop := lt_of_lt_of_le (ht b' hb').start_lt_stop (Token.within t ht hb').2
        exact absurd (lt_of_lt_of_le hstop (le_trans (hfirst v hv) (le_trans hstart hle)))
          (lt_irrefl _)
      · exact Token.mem_preorder_of_withinAll ts hts hrest hb hb' hle hlt

end

/-- In a well-formed run a token is nested in another just when it begins within its span. -/
theorem WellFormed.mem_children_iff {ts : List Token} (h : WellFormed ts)
    (hb : b ∈ ts.flatMap Token.preorder) (hb' : b' ∈ ts.flatMap Token.preorder) :
    b' ∈ b.children.flatMap Token.preorder ↔ b.start < b'.start ∧ b'.start < b.stop := by
  constructor
  · intro hmem
    have hsound : b.Sound := by
      intro u hu
      refine h.placed u ?_
      rw [← Token.preorderAll_eq_flatMap] at hb ⊢
      exact (Token.preorder_sublist_preorderAll ts hb).subset hu
    obtain ⟨v, hv, hmem⟩ := List.mem_flatMap.1 hmem
    obtain ⟨hstart, hstop⟩ := (h.placed b hb).within v hv
    obtain ⟨hstart', hstop'⟩ := Token.within v ((Token.sound_iff.1 hsound).2 v hv) hmem
    exact ⟨lt_of_lt_of_le hstart hstart',
      lt_of_lt_of_le (h.placed b' hb').start_lt_stop (le_trans hstop' hstop)⟩
  · rintro ⟨hstart, hstop⟩
    rw [← Token.preorderAll_eq_flatMap] at hb hb'
    have hmem := Token.mem_preorder_of_withinAll ts (fun t ht => h.sound ht) h.siblings.ordered hb
      hb' (le_of_lt hstart) hstop
    rw [Token.preorder_eq_cons] at hmem
    rcases List.mem_cons.1 hmem with rfl | hmem
    · exact absurd hstart (lt_irrefl _)
    · exact hmem

end Within

namespace Scan

/-! ## Braces within braces -/

/-- Nothing closes the opening brace at `p`. -/
def LeftOpen (cs : List Char) (p : Position) : Prop :=
  ∃ before inner, cs = before ++ '{' :: inner ∧ Text.closesNothing '{' '}' inner = true ∧
    p = Position.start.advanceAll before

/-- What the opening brace at `p` opens ends at `q`: right after the brace that closes it, or with
the text when none does. -/
def EndsAt (cs : List Char) (p q : Position) : Prop :=
  ClosedAt cs p q ∨ LeftOpen cs p ∧ q = Position.start.advanceAll cs

/-- The brace at `p` is still open where the opening brace at `q` stands. -/
def Encloses (cs : List Char) (p q : Position) : Prop :=
  ∃ before after, cs = before ++ '{' :: after ∧ q = Position.start.advanceAll before ∧
    LeftOpen before p

theorem leftOpen_iff {cs : List Char} {p : Position} :
    LeftOpen cs p ↔ ∃ inside, OpenAt cs inside p := by
  constructor
  · rintro ⟨before, inner, hcs, hnothing, hp⟩
    obtain ⟨inside, hrises⟩ := (Text.closesNothing_iff_rises inner).1 hnothing
    exact ⟨inside, before, inner, hcs, hrises, hp⟩
  · rintro ⟨inside, before, inner, hcs, hrises, hp⟩
    exact ⟨before, inner, hcs, (Text.closesNothing_iff_rises inner).2 ⟨inside, hrises⟩, hp⟩

theorem EndsAt.exists_brace {cs : List Char} {p q : Position} (h : EndsAt cs p q) :
    ∃ before after, cs = before ++ '{' :: after ∧ p = Position.start.advanceAll before := by
  rcases h with ⟨before, inner, after, hcs, -, hp, -⟩ | ⟨⟨before, after, hcs, -, hp⟩, -⟩
  · exact ⟨before, _, hcs, hp⟩
  · exact ⟨before, after, hcs, hp⟩

/-- Of two braces the text after the first goes on to the second. -/
theorem exists_between {front rest before after : List Char}
    (hsplit : front ++ '{' :: rest = before ++ '{' :: after)
    (hlt : Position.start.advanceAll front < Position.start.advanceAll before) :
    ∃ inner, before = front ++ '{' :: inner ∧ rest = inner ++ '{' :: after := by
  have hfront : front <+: before ++ '{' :: after := ⟨_, hsplit⟩
  obtain ⟨more, rfl⟩ :=
    (Position.advanceAll_le_iff hfront (List.prefix_append _ _)).1 (le_of_lt hlt)
  rw [List.append_assoc, List.append_cancel_left_eq] at hsplit
  cases more with
  | nil => simp at hlt
  | cons d inner =>
    rw [List.cons_append, List.cons.injEq] at hsplit
    exact ⟨inner, by rw [hsplit.1], hsplit.2⟩

/-- A brace stands between another one and its end just when that one encloses it. -/
theorem encloses_iff {cs before after : List Char} {p q : Position} (h : EndsAt cs p q)
    (hcs : cs = before ++ '{' :: after) :
    Encloses cs p (Position.start.advanceAll before) ↔
      p < Position.start.advanceAll before ∧ Position.start.advanceAll before < q := by
  have hbefore : before <+: cs := ⟨_, hcs.symm⟩
  constructor
  · rintro ⟨before', after', hcs', heq, hleft⟩
    obtain rfl := Position.eq_of_advanceAll_eq hbefore ⟨_, hcs'.symm⟩ heq
    obtain ⟨inside, hopen⟩ := leftOpen_iff.1 hleft
    refine ⟨hopen.lt, ?_⟩
    rcases h with ⟨front, inner, rest, hsplit, hrises, hp, rfl⟩ | ⟨-, rfl⟩
    · -- else its closing brace would stand before the other, where it is still open
      by_contra hle
      obtain ⟨front', inner', rfl, hrises', hp'⟩ := hopen
      have hfront : front' <+: cs := (List.prefix_append _ _).trans hbefore
      obtain rfl : front = front' :=
        Position.eq_of_advanceAll_eq ⟨_, hsplit.symm⟩ hfront (hp.symm.trans hp')
      rw [not_lt, Position.advanceAll_le_iff ⟨rest, by simp [hsplit]⟩ hbefore,
        List.prefix_append_right_inj, List.cons_prefix_cons] at hle
      have hcount := hrises'.never_below _ hle.2
      have heven := hrises.count_eq
      simp at hcount
      omega
    · rw [hcs, Position.advanceAll_append, Position.advanceAll_cons]
      exact lt_of_lt_of_le (Position.lt_advance _ _) (Position.le_advanceAll _ _)
  · rintro ⟨hlt, hend⟩
    rcases h with ⟨front, inner, rest, hsplit, hrises, rfl, rfl⟩ | ⟨hleft, rfl⟩
    · -- up to the brace that closes it, nothing closes the other
      obtain ⟨inner', rfl, hrest⟩ := exists_between (hsplit.symm.trans hcs) hlt
      have hprefix : inner' <+: inner ++ ['}'] := by
        have hle := (Position.advanceAll_le_iff hbefore ⟨rest, by simp [hsplit]⟩).1 (le_of_lt hend)
        rw [List.prefix_append_right_inj, List.cons_prefix_cons] at hle
        exact hle.2
      rcases List.prefix_concat_iff.1 hprefix with rfl | hprefix
      · exact absurd hend (lt_irrefl _)
      · obtain ⟨n, hn⟩ := hrises.of_isPrefix hprefix
        exact ⟨_, after, hcs, rfl, leftOpen_iff.2 ⟨n, front, inner', rfl, hn, rfl⟩⟩
    · obtain ⟨_, front, rest, hsplit, hrises, rfl⟩ := leftOpen_iff.1 hleft
      obtain ⟨inner, rfl, rfl⟩ := exists_between (hsplit.symm.trans hcs) hlt
      obtain ⟨n, hn⟩ := hrises.of_isPrefix (List.prefix_append _ _)
      exact ⟨_, after, hcs, rfl, leftOpen_iff.2 ⟨n, front, inner, rfl, hn, rfl⟩⟩

/-! ## The blocks of a whole text -/

section Whole

variable {cs : List Char}

/-- The blocks of a bare text, with those that are open closed at its end. -/
theorem blockSpans_scanText (h : Text.Bare cs) :
    blockSpans (scanText cs) [] = (blockSpans (State.itemsOf {} cs)
      (State.after {} cs).blocks).map (endedBy (Position.start.advanceAll cs)) := by
  rw [← (State.settled_after cs).next]
  refine blockSpans_finish (comment_eq_none_of_bare h).1 ?_
  intro start hstart
  obtain ⟨inside, hinside⟩ := List.getElem?_of_mem hstart
  rw [(State.settled_after cs).next]
  exact ((braced_after h).opened inside start hinside).lt

/-- At the end every block ends at the brace that closes its own or with the text. -/
theorem Braced.endsAt {items : List Item} {blocks : List OpenBlock} (h : Braced cs items blocks)
    {p q : Position}
    (hmem : (p, some q) ∈
      (blockSpans items blocks).map (endedBy (Position.start.advanceAll cs))) :
    EndsAt cs p q := by
  obtain ⟨⟨start, stop⟩, hspan, hended⟩ := List.mem_map.1 hmem
  obtain ⟨rfl, hq⟩ := Prod.mk.inj hended
  rw [Option.some.injEq] at hq
  cases stop with
  | none =>
    obtain ⟨inside, hinside⟩ := List.getElem?_of_mem (mem_blockSpans_none.1 hspan)
    exact Or.inr ⟨leftOpen_iff.2 ⟨inside, h.opened inside _ hinside⟩, hq.symm⟩
  | some stop =>
    rw [← hq]
    exact Or.inl (h.closed _ _ hspan)

end Whole

end Scan

namespace Source

open Scan

/-- The blocks of a text in which nothing hides a brace are what bracket matching makes of its
braces. After every beginning of the text as many blocks are open as the braces in it leave open.
Every opening brace begins a block, which ends where its match ends or with the source, and blocks
are nested as their braces are. A closing brace that closes nothing is reported once, and at most
indentation ends at it. As many blocks are reported as unclosed as there are braces that nothing
closes. -/
theorem blocks_of_bare (source : Source) (h : Text.Bare source.characters.items) :
    (∀ front, front <+: source.characters.items →
      (State.after {} front).depth = Text.nestingDepth '{' '}' front) ∧
    (source.characters.failure = none →
      (source.tokens.filter (·.type = .block)).map Token.start =
        bracesOf source.characters.items ∧
      (∀ b ∈ source.tokens, b.type = .block →
        EndsAt source.characters.items b.start b.stop ∧
        ∀ b' ∈ source.tokens, b'.type = .block →
          (b' ∈ b.children.flatMap Token.preorder ↔
            Encloses source.characters.items b.start b'.start))) ∧
    (∀ before after, source.characters.items = before ++ '}' :: after →
      (∀ p, ¬ OpenAt before 0 p) →
      (∃ f : Finding, findingsOf ((State.after {} before).scan '}').1.items = [f] ∧
        f.key = .unexpectedCharacterInBlockContent) ∧
      ∀ t ∈ tokensOf ((State.after {} before).scan '}').1.items, t.type = .whitespace) ∧
    (source.characters.failure = none →
      (findingsOf source.tokenize.items).countP (·.issue = .unclosed .block) =
        Text.unclosed '{' '}' source.characters.items) := by
  have hb := braced_after h
  refine ⟨?_, ?_, ?_, ?_⟩
  · intro front hfront
    exact (braced_after (h.of_isPrefix hfront)).depth
  · intro hread
    have hspans := blockSpans_scanText h
    rw [← items_tokenize hread, blockSpans, Token.flatMap_blockSpans] at hspans
    have hstarts := congrArg (List.map Prod.fst) hspans
    have hends : ∀ b ∈ source.tokens, b.type = .block →
        EndsAt source.characters.items b.start b.stop := by
      intro b hmem hblock
      refine hb.endsAt ?_
      rw [← hspans]
      exact List.mem_map.2 ⟨b, List.mem_filter.2 ⟨hmem, by simp [hblock]⟩, rfl⟩
    simp only [List.map_map, Function.comp_def, endedBy] at hstarts
    refine ⟨hstarts.trans hb.starts, ?_⟩
    intro b hmem hblock
    refine ⟨hends b hmem hblock, ?_⟩
    intro b' hmem' hblock'
    obtain ⟨s, hforest⟩ := source.forest_tokenize
    obtain ⟨before, after, hsplit, hstart⟩ := (hends b' hmem' hblock').exists_brace
    rw [hforest.wellFormed.mem_children_iff hmem hmem', hstart,
      encloses_iff (hends b hmem hblock) hsplit]
  · intro before after hsplit hnone
    have hbefore := h.of_isPrefix ⟨'}' :: after, hsplit.symm⟩
    refine scan_stray hbefore ?_
    cases hblocks : (State.after {} before).blocks with
    | nil => rfl
    | cons b blocks =>
      refine absurd ((braced_after hbefore).opened 0 b.start ?_) (hnone b.start)
      simp [hblocks]
  · intro hread
    rw [items_tokenize hread, ← Text.nestingDepth_eq_unclosed (by decide), ← hb.depth]
    exact countP_scanText (comment_eq_none_of_bare h).1

/-- Two blocks in one that nothing closes, after a brace that closes nothing. -/
theorem blocks_of_bare_nested :
    let source := ofString "\x7d\na\x7bb\x7bc:d\x7d\x7b"
    source.characters = { items := "\x7d\na\x7bb\x7bc:d\x7d\x7b".toList } ∧
    Text.Bare source.characters.items ∧
    (source.tokens.filter (·.type = .block)).map Token.start = [⟨2, 2⟩, ⟨2, 4⟩, ⟨2, 9⟩] ∧
    (∃ f : Finding, findingsOf (State.scan {} '}').1.items = [f] ∧
      f.key = .unexpectedCharacterInBlockContent) ∧
    (findingsOf source.tokenize.items).countP (·.issue = .unclosed .block) = 2 := by
  intro source
  have hcharacters : source.characters = { items := "\x7d\na\x7bb\x7bc:d\x7d\x7b".toList } := by
    rw [characters_ofString]
    decide +kernel
  have hchars : source.characters.items.all (fun c => c ∉ ['"', '\'', '(', ')', '@']) = true := by
    rw [hcharacters]
    decide +kernel
  have hbare : Text.Bare source.characters.items := by
    refine ⟨fun c hc => of_decide_eq_true (List.all_eq_true.1 hchars c hc), ?_⟩
    rw [hcharacters]
    decide +kernel
  obtain ⟨-, hblocks, hstray, hunclosed⟩ := blocks_of_bare source hbare
  refine ⟨hcharacters, hbare, ?_, ?_, ?_⟩
  · rw [(hblocks (by rw [hcharacters])).1, hcharacters]
    decide +kernel
  · refine (hstray [] "\na\x7bb\x7bc:d\x7d\x7b".toList (by rw [hcharacters]; decide) ?_).1
    rintro p ⟨before, inner, hsplit, -⟩
    simp at hsplit
  · rw [hunclosed (by rw [hcharacters]), hcharacters]
    decide +kernel

end Source

end Stylesheet
