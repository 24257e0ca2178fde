import Stylesheet.Proofs.Brackets
import Stylesheet.Proofs.Scan.Findings
import Stylesheet.Proofs.SourceText

set_option autoImplicit false

/-! # Braces and blocks

In a text without strings, parentheses, at-rules and comments (`Text.Bare`) nothing hides a brace
from the rule for blocks: whatever is open before it, at most one token is finished at the brace,
and then it opens a block, closes one or is reported (`State.Exposed.exists_claim`). So the open
blocks are the braces that are still to be closed, and a block ends at the brace that closes its own
(`braced_after`). -/

namespace Stylesheet

/-- A text without strings, parentheses, at-rules and comments. -/
structure Text.Bare (cs : List Char) : Prop where
  chars : ∀ c ∈ cs, c ∉ ['"', '\'', '(', ')', '@']
  comments : ¬ ['/', '*'] <:+: cs

theorem Text.Bare.of_isPrefix {front cs : List Char} (h : Text.Bare cs) (hfront : front <+: cs) :
    Text.Bare front where
  chars c hc := h.chars c (hfront.subset hc)
  comments hpart := h.comments (hpart.trans hfront.isInfix)

namespace Scan

/-! ## Nothing hides the braces of a bare text -/

/-- No comment, string, parenthesis or at-rule keeps the character that is scanned from the rule for
blocks. -/
structure State.Exposed (s : State) : Prop where
  comment : s.comment = none
  current : ∀ o, s.current = some o → o.kind ≠ .atRule
  string : Text.insideString s.bodyText = false
  parens : Text.openParens s.bodyText = 0

section Exposed

variable {cs : List Char} {c : Char} {s : State}

/-- A text without `/*` has no comments, so all of it counts as text. -/
theorem comment_eq_none_of_bare (h : Text.Bare cs) :
    (State.after {} cs).comment = none ∧ uncommented cs = Cell.ofText .start cs := by
  induction cs using List.reverseRecOn with
  | nil => exact ⟨rfl, rfl⟩
  | append_singleton cs c ih =>
    obtain ⟨hk, hall⟩ := ih (h.of_isPrefix (List.prefix_append _ _))
    have hk' : (State.after {} (cs ++ [c])).comment = none := by
      refine Option.eq_none_iff_forall_ne_some.2 ?_
      intro k hsome
      obtain ⟨hc, before, slash, -, hslash, -, -, -, hsuffix, -⟩ :=
        ((State.pending_after cs).showsAfter hk c).2 k hsome
      -- the slash that was pending is the last character of the text
      have htext : Cell.text before ++ ['/'] <:+ cs := by
        have hmap := hsuffix.map Cell.char
        rw [hall] at hmap
        simpa [Cell.text, hslash] using hmap
      obtain ⟨front, rfl⟩ := htext
      simp only at hc
      exact h.comments ⟨front ++ Cell.text before, [], by simp [hc]⟩
    refine ⟨hk', ?_⟩
    rw [uncommented_of_none hk hk', hall, Cell.ofText_append, Cell.ofText_singleton]

theorem mem_of_mem_window {cell : Cell} (h : cell ∈ (State.after {} cs).window.cells) :
    cell.char ∈ cs := by
  obtain ⟨before, after, rfl, -⟩ :=
    Cell.mem_ofText_iff.1 ((State.settled_after cs).cells.subset h)
  simp

theorem exposed_arrive (h : Text.Bare cs) (c : Char) : ((State.after {} cs).arrive c).Exposed := by
  have hk := (comment_eq_none_of_bare h).1
  have hbody : ∀ d ∈ ((State.after {} cs).arrive c).bodyText,
      Text.isQuote d = false ∧ d ≠ '(' ∧ d ≠ ')' := by
    intro d hd
    obtain ⟨cell, hcell, rfl⟩ := List.mem_map.1 hd
    have hchar := h.chars cell.char (mem_of_mem_window hcell)
    simp only [List.mem_cons, not_or] at hchar
    simp [Text.isQuote, hchar]
  refine ⟨hk, ?_, Text.insideString_of_isQuote fun d hd => (hbody d hd).1, ?_⟩
  · intro o ho hkind
    obtain ⟨head, rest, -, hcells, hlast, -, -⟩ :=
      ((State.settled_after cs).coherent.current hk o ho).exists_head (by simp [hkind])
    rw [hkind] at hlast
    obtain ⟨cell, hcell, hchar⟩ := List.mem_map.1 (List.mem_of_getLast? hlast)
    have hsign := h.chars cell.char (mem_of_mem_window (by simp [hcells, hcell]))
    simp [hchar] at hsign
  · rw [Text.openParens, Text.foldl_next_eq_self hbody rfl]

theorem State.OfferedAgain.exposed (h : s.OfferedAgain cs c) : s.Exposed := by
  have hbody : s.bodyText = [] := by rw [State.bodyText, h.body_eq_nil]; rfl
  refine ⟨h.comment_eq_none, by simp [h.current_eq_none], ?_, ?_⟩ <;> rw [hbody] <;> rfl

/-- A rule other than that for blocks claims a brace only to finish a token with it, and hands it
on. -/
theorem Claim.handsOn {rule : Rule} {outcome : Outcome} {s' : State}
    (h : Claim s c rule outcome s') (hs : s.Offered cs c) (hx : s.Exposed)
    (hc : c = '{' ∨ c = '}') (hrule : rule ≠ .block) :
    ∃ t, outcome = .token t ∧ t.type ≠ .block ∧ (c = '}' → s.blocks = [] → t.type = .whitespace) ∧
      (s.current = none → s.window.body ≠ []) ∧
      State.continues t.type rule c = true ∧ Rule.block ∈ State.rescanRules rule := by
  have hvisible : Text.isBlank c = false := by rcases hc with rfl | rfl <;> decide
  cases h with
  | inComment k hk | stripComment k hk | closeComment k hk => simp [hx.comment] at hk
  | openComment hk star slash before hrecent hstar =>
    have hlast := hs.last
    rw [Window.last?, hrecent, List.head?_cons, Option.map_some, Option.some.injEq, hstar] at hlast
    subst hlast
    simp at hc
  | closeAtRule hk o ho hkind => exact absurd hkind (hx.current o ho)
  | selector hk hc' _ _ _ start stop hspan =>
    refine ⟨_, rfl, by simp [Leaf.type], by simp [hc'], ?_, by simp [Leaf.type, hc'], by decide⟩
    intro _ hnil
    simp [hnil, Cell.span?] at hspan
  | closeProperty hk hblocks o ho name hkind hc' =>
    have hbrace : c = '}' := by
      rcases hc with rfl | rfl
      · simp at hc'
      · rfl
    exact ⟨_, rfl, by simp [OpenToken.close, Leaf.type], fun _ hnil => absurd hnil hblocks,
      by simp [ho], by simp [OpenToken.close, Leaf.type, hbrace], by decide⟩
  | closeWhitespace hk o ho =>
    exact ⟨_, rfl, by simp [OpenToken.close, Leaf.type], fun _ _ => rfl, by simp [ho],
      by simp [OpenToken.close, Leaf.type], by decide⟩
  | openAtRule hk _ hc' | openProperty hk _ _ hc' | rejectBlank hk _ _ hc'
  | rejectContent hk _ _ hc' => simp [hc'] at hc
  | openWhitespace hk _ hblank => simp [hvisible] at hblank
  | inWhitespace hk o ho _ hblank => simp [hvisible] at hblank
  | _ => exact absurd rfl hrule

/-- What the rule for blocks does with a brace. -/
theorem Claim.block_cases {outcome : Outcome} {s' : State} (h : Claim s c .block outcome s') :
    c = '{' ∧ outcome.token? = none ∧
        (∃ id header, s'.blocks = ⟨id, s.position, header, []⟩ :: s.blocks) ∨
      c = '}' ∧ (∃ b, s.blocks = b :: s'.blocks ∧ outcome.token? = some (b.close s.next)) ∨
      c = '}' ∧ s.blocks = [] ∧ s'.blocks = [] ∧ outcome.token? = none ∧
        ∃ f : Finding, outcome.found = [.finding f] ∧
          f.key = .unexpectedCharacterInBlockContent := by
  cases h with
  | openBlock hk hc | openUnclaimed hk hc => exact Or.inl ⟨hc, rfl, _, _, rfl⟩
  | closeBlock hk _ hc _ _ b blocks hb | closeBlockAfter hk _ hc _ _ _ _ b blocks hb =>
    exact Or.inr (Or.inl ⟨hc, b, hb, rfl⟩)
  | strayBrace hk _ hc _ _ hb | strayContent hk _ hc _ _ _ _ hb =>
    exact Or.inr (Or.inr ⟨hc, hb, hb, rfl, _, rfl, rfl⟩)

/-- The rule for blocks passes no brace over, nor does the rule whose token is open before it. -/
theorem State.Exposed.exists_firstClaim (hx : s.Exposed) (hs : s.Offered cs c)
    (hc : c = '{' ∨ c = '}') {rules : List Rule} (hrules : Rule.lineEnding ∉ rules)
    (hmem : Rule.block ∈ rules) (hall : s.current ≠ none → rules = Rule.order.tail) :
    ∃ rule outcome s', State.firstClaim rules s = (some (rule, outcome), s') ∧
      Claim s c rule outcome s' := by
  rcases firstClaim_cases rules hs.last hrules with
    ⟨-, hskip⟩ | ⟨rule, outcome, s', -, hfirst, hclaim⟩
  · -- which rule would have to skip depends on what is open, so each of the three has its own part
    exfalso
    have hbegin (t : State) (ht : t.bodyText = s.bodyText) : t.beginBlock.1 ≠ .skip := by
      unfold State.beginBlock
      rw [ht, hx.string]
      dsimp only
      cases Cell.span? t.window.body <;> simp
    have habandon : s.abandonProperty.1 ≠ .skip := by
      rw [State.abandonProperty, hx.string, hx.parens, if_neg (by simp)]
      exact hbegin _ rfl
    have hclose : s.closeBlock.1 ≠ .skip := by
      unfold State.closeBlock
      rw [hx.string]
      dsimp only
      cases s.blocks <;> cases Cell.span? s.window.body <;> simp
    have hblock := congrArg Prod.fst (hskip .block hmem)
    cases ho : s.current with
    | none =>
      rcases hc with rfl | rfl
      · simp [Rule.scan, hs.last, hx.comment, State.scanBlock, State.currentType, ho,
          hbegin s rfl] at hblock
      · simp [Rule.scan, hs.last, hx.comment, State.scanBlock, State.currentType, ho,
          hclose] at hblock
    | some o =>
      have htail := hall (by simp [ho])
      cases hkind : o.kind with
      | atRule => exact hx.current o ho hkind
      | whitespace =>
        have hvisible : Text.isBlank c = false := by rcases hc with rfl | rfl <;> decide
        have hscan := hskip .whitespace (by rw [htail]; decide)
        simp [Rule.scan, hs.last, hx.comment, State.scanWhitespace, ho, hkind, hvisible] at hscan
      | property name =>
        rcases hc with rfl | rfl
        · simp [Rule.scan, hs.last, hx.comment, State.scanBlock, State.currentType, ho, hkind,
            OpenKind.type, habandon] at hblock
        · have hin := hs.coherent.inBlock o name ho hkind
          have hscan := hskip .property (by rw [htail]; decide)
          simp [Rule.scan, hs.last, hx.comment, State.scanProperty, hin, ho, hkind,
            State.closeProperty, hx.string] at hscan
  · exact ⟨rule, outcome, s', hfirst, hclaim⟩

/-- Before the rule for blocks gets the character `c`, another one may finish a token at it. -/
def State.HandsOver (s : State) (c : Char) (items : List Item) (s₁ : State) : Prop :=
  items = [] ∧ s₁ = s ∨ ∃ rule t s', Claim s c rule (.token t) s' ∧ t.type ≠ .block ∧
    (c = '}' → s.blocks = [] → t.type = .whitespace) ∧ items = (s'.complete t).1 ∧
    s₁ = (s'.complete t).2.pushAgain c

/-- What a claim leaves behind that is not handed on. -/
def Outcome.result (outcome : Outcome) (s : State) : List Item × State :=
  match outcome.token? with
  | none => (outcome.found, s)
  | some t => (outcome.found ++ (s.complete t).1, (s.complete t).2)

/-- A claim of the rule for blocks ends the scan of the character. -/
theorem scanPasses_of_block {rules : List Rule} {outcome : Outcome} {s' : State} (passes : Nat)
    (hfirst : State.firstClaim rules s = (some (.block, outcome), s'))
    (hclaim : Claim s c .block outcome s') :
    (State.scanPasses c (passes + 1) rules s).1.items = (outcome.result s').1 ∧
      (State.scanPasses c (passes + 1) rules s).2 = (outcome.result s').2 := by
  rcases hclaim.block_cases with ⟨-, ht, -⟩ | ⟨-, b, -, ht⟩ | ⟨-, -, -, ht, -⟩
  all_goals
    simp [State.scanPasses, hfirst, ht, Outcome.result, Outcome.found, OpenBlock.close]

/-- A brace that nothing hides is claimed by the rule for blocks, at once or after a token that it
has finished. -/
theorem State.Exposed.exists_claim (hx : s.Exposed) (hs : s.Offered cs c)
    (hc : c = '{' ∨ c = '}') :
    ∃ items s₁ outcome s', s.HandsOver c items s₁ ∧ s₁.Offered cs c ∧
      Claim s₁ c .block outcome s' ∧
      (State.scanPasses c 7 Rule.order.tail s).1.items = items ++ (outcome.result s').1 ∧
      (State.scanPasses c 7 Rule.order.tail s).2 = (outcome.result s').2 := by
  obtain ⟨rule, outcome, s', hfirst, hclaim⟩ :=
    hx.exists_firstClaim hs hc State.lineEnding_not_mem_tail (by decide) (fun _ => rfl)
  by_cases hrule : rule = .block
  · subst hrule
    exact ⟨[], s, outcome, s', Or.inl ⟨rfl, rfl⟩, hs, hclaim, scanPasses_of_block 6 hfirst hclaim⟩
  · -- with nothing open and nothing before it, the brace is left to the rule for blocks
    obtain ⟨t, rfl, htype, hwhite, -, hcontinues, hmem⟩ := hclaim.handsOn hs hx hc hrule
    have hagain := hclaim.offeredAgain hs rfl
    obtain ⟨rule', outcome', s'', hfirst', hclaim'⟩ :=
      hagain.exposed.exists_firstClaim hagain.toOffered hc
        (State.lineEnding_not_mem_rescanRules rule) hmem (by simp [hagain.current_eq_none])
    obtain rfl : rule' = .block := by
      by_contra hrule'
      obtain ⟨-, -, -, -, hbody, -⟩ := hclaim'.handsOn hagain.toOffered hagain.exposed hc hrule'
      exact hbody hagain.current_eq_none hagain.body_eq_nil
    obtain ⟨hitems, hstate⟩ := State.scanPasses_of_handoff 6 hfirst rfl hcontinues
    obtain ⟨hitems', hstate'⟩ := scanPasses_of_block 5 hfirst' hclaim'
    refine ⟨_, _, outcome', s'', Or.inr ⟨rule, t, s', hclaim, htype, hwhite, rfl, rfl⟩,
      hagain.toOffered, hclaim', ?_, hstate.trans hstate'⟩
    rw [hitems, hitems']
    rfl

end Exposed

end Scan

/-! ## The blocks of a run -/

/-- Where the blocks in the token begin and end, in source order. -/
def Token.blockSpans (t : Token) : List (Position × Option Position) :=
  (t.preorder.filter (·.type = .block)).map fun b => (b.start, some b.stop)

namespace Token

theorem flatMap_blockSpans (ts : List Token) :
    ts.flatMap blockSpans =
      ((ts.flatMap preorder).filter (·.type = .block)).map fun b => (b.start, some b.stop) := by
  rw [List.filter_flatMap, List.map_flatMap]
  rfl

theorem blockSpans_eq (t : Token) :
    t.blockSpans = (if t.type = .block then [(t.start, some t.stop)] else []) ++
      t.children.flatMap blockSpans := by
  rw [flatMap_blockSpans, blockSpans, preorder_eq_cons]
  by_cases htype : t.type = .block
  · rw [List.filter_cons_of_pos (by simpa using htype), if_pos htype]
    rfl
  · rw [List.filter_cons_of_neg (by simpa using htype), if_neg htype]
    rfl

@[simp] theorem blockSpans_childOf (t : Token) (parent : TokenId) (previous : Option TokenId) :
    (t.childOf parent previous).blockSpans = t.blockSpans := by
  simp [blockSpans_eq]

@[simp] theorem blockSpans_linkedAfter (t : Token) (previous : Option TokenId) :
    (t.linkedAfter previous).blockSpans = t.blockSpans := by
  simp [blockSpans_eq]

@[simp] theorem blockSpans_ofLeaf (id : TokenId) (content : Leaf) (start stop : Position) :
    (ofLeaf id content start stop).blockSpans = [] := by
  cases content <;> simp [blockSpans_eq, Leaf.type]

end Token

namespace Scan

@[simp] theorem start_add (b : OpenBlock) (t : Token) : (b.add t).start = b.start := rfl

theorem blockSpans_close {b : OpenBlock} {stop : Position} (h : b.start < stop) :
    (b.close stop).blockSpans = (b.start, some stop) :: b.children.flatMap Token.blockSpans := by
  rw [Token.blockSpans_eq]
  simp [OpenBlock.close, Position.widen_of_lt h]

/-- Where the blocks of a run begin and, as far as they are closed, end, in source order. -/
def blockSpans (items : List Item) : List OpenBlock → List (Position × Option Position)
  | [] => (tokensOf items).flatMap Token.blockSpans
  | b :: blocks =>
    blockSpans items blocks ++ (b.start, none) :: b.children.flatMap Token.blockSpans

section Spans

variable {items items' : List Item} {blocks : List OpenBlock}

theorem blockSpans_congr (h : tokensOf items' = tokensOf items) :
    blockSpans items' blocks = blockSpans items blocks := by
  induction blocks with
  | nil => simp [blockSpans, h]
  | cons b blocks ih => simp [blockSpans, ih]

theorem blockSpans_accept (items : List Item) (s : State) (t : Token) :
    blockSpans (items ++ (s.accept t).1) (s.accept t).2.blocks =
      blockSpans items s.blocks ++ t.blockSpans := by
  cases hblocks : s.blocks with
  | nil =>
    obtain ⟨htokens, hnil, -⟩ := Forest.tokensOf_accept_of_nil items t hblocks
    rw [hnil, blockSpans, htokens]
    simp [blockSpans]
  | cons b blocks =>
    obtain ⟨htokens, hcons, -⟩ := Forest.tokensOf_accept_of_cons items t hblocks
    rw [hcons, blockSpans_congr htokens, blockSpans, OpenBlock.children_add]
    simp [blockSpans, OpenBlock.add]

theorem starts_accept (s : State) (t : Token) :
    (s.accept t).2.blocks.map OpenBlock.start = s.blocks.map OpenBlock.start := by
  cases hblocks : s.blocks <;> simp [State.accept, State.acceptTopLevel, hblocks, OpenBlock.add]

/-- The blocks without an end are those that are open. -/
theorem mem_blockSpans_none {p : Position} :
    (p, none) ∈ blockSpans items blocks ↔ p ∈ blocks.map OpenBlock.start := by
  have hfinished (ts : List Token) : (p, none) ∉ ts.flatMap Token.blockSpans := by
    simp [Token.flatMap_blockSpans]
  induction blocks with
  | nil => simpa [blockSpans] using hfinished (tokensOf items)
  | cons b blocks ih =>
    have hchildren := hfinished b.children
    simp only [blockSpans, List.mem_append, List.mem_cons, List.map_cons, ih, hchildren, or_false,
      Prod.mk.injEq, and_true]
    exact or_comm

end Spans

/-! ## Which brace a block ends at -/

/-- The opening brace at `p` is closed by the brace right before `q`. -/
def ClosedAt (cs : List Char) (p q : Position) : Prop :=
  ∃ before inner after, cs = before ++ '{' :: (inner ++ '}' :: after) ∧
    Text.Rises '{' '}' 0 inner ∧ p = Position.start.advanceAll before ∧
    q = Position.start.advanceAll (before ++ '{' :: (inner ++ ['}']))

/-- The opening brace at `p` is still to be closed, and `inside` braces after it before it. -/
def OpenAt (cs : List Char) (inside : Nat) (p : Position) : Prop :=
  ∃ before inner, cs = before ++ '{' :: inner ∧ Text.Rises '{' '}' inside inner ∧
    p = Position.start.advanceAll before

/-- The positions of the opening braces of a text. -/
def bracesOf (cs : List Char) : List Position :=
  ((Cell.ofText .start cs).filter (·.char = '{')).map Cell.position

theorem ClosedAt.concat {cs : List Char} {p q : Position} (h : ClosedAt cs p q) (c : Char) :
    ClosedAt (cs ++ [c]) p q := by
  obtain ⟨before, inner, after, rfl, hrises, hp, hq⟩ := h
  exact ⟨before, inner, after ++ [c], by simp, hrises, hp, hq⟩

theorem OpenAt.lt {cs : List Char} {inside : Nat} {p : Position} (h : OpenAt cs inside p) :
    p < Position.start.advanceAll cs := by
  obtain ⟨before, inner, rfl, -, rfl⟩ := h
  rw [Position.advanceAll_append, Position.advanceAll_cons]
  exact lt_of_lt_of_le (Position.lt_advance _ _) (Position.le_advanceAll _ _)

section Step

variable {cs : List Char} {c : Char} {inside : Nat} {p : Position}

theorem bracesOf_concat (cs : List Char) (c : Char) :
    bracesOf (cs ++ [c]) =
      bracesOf cs ++ if c = '{' then [Position.start.advanceAll cs] else [] := by
  by_cases hc : c = '{' <;> simp [bracesOf, hc]

theorem OpenAt.concat_of_ne (h : OpenAt cs inside p) (hopening : c ≠ '{') (hclosing : c ≠ '}') :
    OpenAt (cs ++ [c]) inside p := by
  obtain ⟨before, inner, rfl, hrises, hp⟩ := h
  exact ⟨before, inner ++ [c], by simp, (Text.rises_concat_of_ne hopening hclosing).2 hrises, hp⟩

theorem OpenAt.concat_opening (h : OpenAt cs inside p) : OpenAt (cs ++ ['{']) (inside + 1) p := by
  obtain ⟨before, inner, rfl, hrises, hp⟩ := h
  exact ⟨before, inner ++ ['{'], by simp, (Text.rises_concat_opening (by decide)).2 hrises, hp⟩

theorem OpenAt.concat_closing (h : OpenAt cs (inside + 1) p) : OpenAt (cs ++ ['}']) inside p := by
  obtain ⟨before, inner, rfl, hrises, hp⟩ := h
  exact ⟨before, inner ++ ['}'], by simp, (Text.rises_concat_closing (by decide)).2 hrises, hp⟩

theorem openAt_concat (cs : List Char) : OpenAt (cs ++ ['{']) 0 (Position.start.advanceAll cs) :=
  ⟨cs, [], rfl, Text.rises_nil, rfl⟩

theorem OpenAt.closedAt (h : OpenAt cs 0 p) :
    ClosedAt (cs ++ ['}']) p (Position.start.advanceAll (cs ++ ['}'])) := by
  obtain ⟨before, inner, rfl, hrises, hp⟩ := h
  exact ⟨before, inner, [], by simp, hrises, hp, by simp⟩

end Step

/-- The blocks of a run begin at the braces of the text; those that are closed end at the brace that
closes their own, and those that are open, innermost first, are still to be closed. -/
structure Braced (cs : List Char) (items : List Item) (blocks : List OpenBlock) : Prop where
  starts : (blockSpans items blocks).map Prod.fst = bracesOf cs
  closed : ∀ p q, (p, some q) ∈ blockSpans items blocks → ClosedAt cs p q
  opened : ∀ inside p, (blocks.map OpenBlock.start)[inside]? = some p → OpenAt cs inside p
  depth : blocks.length = Text.nestingDepth '{' '}' cs

namespace Braced

variable {cs : List Char} {items items' : List Item} {blocks blocks' : List OpenBlock}

theorem congr (h : Braced cs items blocks)
    (hspans : blockSpans items' blocks' = blockSpans items blocks)
    (hstarts : blocks'.map OpenBlock.start = blocks.map OpenBlock.start) :
    Braced cs items' blocks' where
  starts := by rw [hspans, h.starts]
  closed := by rw [hspans]; exact h.closed
  opened := by rw [hstarts]; exact h.opened
  depth := by
    have hlength := congrArg List.length hstarts
    rw [List.length_map, List.length_map] at hlength
    rw [hlength, h.depth]

/-- Other characters leave the blocks alone. -/
theorem concat_of_ne (h : Braced cs items blocks) {c : Char} (hopening : c ≠ '{')
    (hclosing : c ≠ '}') : Braced (cs ++ [c]) items blocks where
  starts := by rw [h.starts, bracesOf_concat, if_neg hopening, List.append_nil]
  closed p q hmem := (h.closed p q hmem).concat c
  opened inside p hp := (h.opened inside p hp).concat_of_ne hopening hclosing
  depth := by rw [h.depth, Text.nestingDepth_concat, Text.nest, if_neg hopening, if_neg hclosing]

/-- An opening brace is one more to be closed. -/
theorem concat_opening (h : Braced cs items blocks) (id : TokenId) (header : Position) :
    Braced (cs ++ ['{']) items (⟨id, Position.start.advanceAll cs, header, []⟩ :: blocks) where
  starts := by
    rw [bracesOf_concat, if_pos rfl, ← h.starts, blockSpans, List.map_append]
    rfl
  closed p q hmem := by
    rw [blockSpans, List.mem_append] at hmem
    rcases hmem with hmem | hmem
    · exact (h.closed p q hmem).concat '{'
    · simp [OpenBlock.children] at hmem
  opened inside p hp := by
    cases inside with
    | zero =>
      rw [List.map_cons, List.getElem?_cons_zero, Option.some.injEq] at hp
      rw [← hp]
      exact openAt_concat cs
    | succ inside =>
      rw [List.map_cons, List.getElem?_cons_succ] at hp
      exact (h.opened inside p hp).concat_opening
  depth := by rw [Text.nestingDepth_concat, Text.nest, if_pos rfl, ← h.depth, List.length_cons]

/-- A closing brace ends the block whose brace is the last one to be closed. -/
theorem concat_closing {b : OpenBlock} (h : Braced cs items (b :: blocks))
    (hspans : blockSpans items' blocks' = blockSpans items blocks ++
      (b.close (Position.start.advanceAll (cs ++ ['}']))).blockSpans)
    (hstarts : blocks'.map OpenBlock.start = blocks.map OpenBlock.start) :
    Braced (cs ++ ['}']) items' blocks' := by
  have hopen : OpenAt cs 0 b.start := h.opened 0 b.start rfl
  have hclosed := hopen.closedAt
  have hlt : b.start < Position.start.advanceAll (cs ++ ['}']) := by
    rw [Position.advanceAll_append]
    exact lt_of_lt_of_le hopen.lt (Position.le_advanceAll _ _)
  have hlength := congrArg List.length hstarts
  rw [List.length_map, List.length_map] at hlength
  rw [blockSpans_close hlt] at hspans
  -- the block has got an end and stays where it is in source order
  refine ⟨?_, ?_, ?_, ?_⟩
  · rw [hspans, bracesOf_concat, if_neg (by decide), List.append_nil, ← h.starts, blockSpans,
      List.map_append, List.map_append]
    rfl
  · intro p q hmem
    rw [hspans, List.mem_append, List.mem_cons, Prod.mk.injEq, Option.some.injEq] at hmem
    rcases hmem with hmem | ⟨rfl, rfl⟩ | hmem
    · exact (h.closed p q (by rw [blockSpans]; exact List.mem_append_left _ hmem)).concat '}'
    · exact hclosed
    · refine (h.closed p q ?_).concat '}'
      rw [blockSpans]
      exact List.mem_append_right _ (List.mem_cons_of_mem _ hmem)
  · intro inside p hp
    rw [hstarts] at hp
    exact (h.opened (inside + 1) p (by simpa using hp)).concat_closing
  · have hdepth := h.depth
    rw [List.length_cons] at hdepth
    rw [Text.nestingDepth_concat, Text.nest, if_neg (by decide), if_pos rfl, hlength]
    omega

/-- With nothing to close, a closing brace leaves the blocks alone. -/
theorem concat_stray (h : Braced cs items []) : Braced (cs ++ ['}']) items [] where
  starts := by rw [h.starts, bracesOf_concat, if_neg (by decide), List.append_nil]
  closed p q hmem := (h.closed p q hmem).concat '}'
  opened := by simp
  depth := by
    rw [Text.nestingDepth_concat, Text.nest, if_neg (by decide), if_pos rfl, ← h.depth]
    rfl

end Braced

/-! ## A run -/

section Run

variable {cs : List Char} {c : Char} {s s' : State} {rule : Rule} {outcome : Outcome}
  {items mid : List Item}

/-- A finished token that is no block has no blocks in it. -/
theorem Claim.blocks_of_leaf (h : Claim s c rule outcome s') (hs : s.Offered cs c) {t : Token}
    (ht : outcome.token? = some t) (htype : t.type ≠ .block) (items : List Item) :
    blockSpans (items ++ outcome.found ++ (s'.complete t).1) (s'.complete t).2.blocks =
        blockSpans items s.blocks ∧
      (s'.complete t).2.blocks.map OpenBlock.start = s.blocks.map OpenBlock.start := by
  have hspans := blockSpans_accept (items ++ outcome.found) (s'.recordCompleted t) t
  have hstarts := starts_accept (s'.recordCompleted t) t
  rcases (h.finishes hs ht).2 with ⟨id, content, start, rfl, hleaf⟩ | ⟨b, blocks, -, -, -, -, rfl⟩
  · have hblocks (u : Token) : (s'.recordCompleted u).blocks = s.blocks := hleaf.blocks
    rw [hblocks] at hspans hstarts
    refine ⟨hspans.trans ?_, hstarts⟩
    rw [Token.blockSpans_ofLeaf, List.append_nil]
    exact blockSpans_congr (by simp)
  · exact absurd rfl htype

theorem State.preserves_braced (cs : List Char) (hopening : c ≠ '{') (hclosing : c ≠ '}') :
    Preserves c (fun items s => s.Offered cs c ∧ Braced cs items s.blocks)
      (fun items s => s.OfferedAgain cs c ∧ Braced cs items s.blocks)
      (fun items s => Braced cs items s.blocks) where
  last h := h.1.last
  first_of_again h := ⟨h.1.toOffered, h.2⟩
  done_of_again h := h.2
  done_of_skip h _ := h.2
  done_of_claim h hclaim ht := by
    rcases hclaim.blocks_cases ht with hblocks | ⟨hbrace, -⟩
    · rw [hblocks]
      exact h.2.congr (blockSpans_congr (by simp)) rfl
    · exact absurd hbrace hopening
  done_of_token h hclaim ht _ := by
    obtain ⟨hspans, hstarts⟩ := hclaim.blocks_of_leaf h.1 ht
      (fun htype => hclosing (hclaim.eq_brace_of_block ht htype)) _
    exact h.2.congr hspans hstarts
  again_of_token h hclaim ht _ := by
    obtain ⟨hspans, hstarts⟩ := hclaim.blocks_of_leaf h.1 ht
      (fun htype => hclosing (hclaim.eq_brace_of_block ht htype)) _
    exact ⟨hclaim.offeredAgain h.1 ht, h.2.congr hspans hstarts⟩

theorem State.HandsOver.braced {s₁ : State} (h : s.HandsOver c mid s₁) (hs : s.Offered cs c)
    (hb : Braced cs items s.blocks) : Braced cs (items ++ mid) s₁.blocks := by
  rcases h with ⟨rfl, rfl⟩ | ⟨rule, t, s', hclaim, htype, -, rfl, rfl⟩
  · rwa [List.append_nil]
  · obtain ⟨hspans, hstarts⟩ := hclaim.blocks_of_leaf hs rfl htype items
    have hfound : (Outcome.token t).found = [] := rfl
    rw [hfound, List.append_nil] at hspans
    exact hb.congr hspans hstarts

/-- The rule for blocks does with a brace what the brace does to the nesting. -/
theorem Claim.braced (h : Claim s c .block outcome s') (hs : s.Offered cs c)
    (hb : Braced cs items s.blocks) :
    Braced (cs ++ [c]) (items ++ (outcome.result s').1) (outcome.result s').2.blocks := by
  have htokens : tokensOf (items ++ outcome.found) = tokensOf items := by simp
  rcases h.block_cases with ⟨rfl, ht, id, header, hblocks⟩ | ⟨rfl, b, hblocks, ht⟩ |
    ⟨rfl, hnil, hnil', ht, -⟩
  -- a block is opened, the innermost is closed, or there is none to close
  · rw [Outcome.result, ht]
    show Braced _ _ s'.blocks
    rw [hblocks, hs.position]
    exact (hb.concat_opening id header).congr (blockSpans_congr htokens) rfl
  · rw [hblocks] at hb
    rw [Outcome.result, ht, ← List.append_assoc]
    refine hb.concat_closing ?_ (starts_accept (s'.recordCompleted _) _)
    rw [← hs.next_eq]
    refine (blockSpans_accept (items ++ outcome.found) (s'.recordCompleted _) _).trans ?_
    rw [blockSpans_congr htokens]
    rfl
  · rw [hnil] at hb
    rw [Outcome.result, ht]
    show Braced _ _ s'.blocks
    rw [hnil']
    exact hb.concat_stray.congr (blockSpans_congr htokens) rfl

/-- The blocks of a bare text are where its braces are. -/
theorem braced_after (h : Text.Bare cs) :
    Braced cs (State.itemsOf {} cs) (State.after {} cs).blocks := by
  induction cs using List.reverseRecOn with
  | nil => exact ⟨rfl, by simp [blockSpans], by simp, rfl⟩
  | append_singleton cs c ih =>
    -- a brace has to reach the rule for blocks; of other characters only harmlessness is needed
    have hfront := h.of_isPrefix (List.prefix_append cs [c])
    have hs := (State.settled_after cs).arrive c
    have hb : Braced cs (State.itemsOf {} cs) ((State.after {} cs).arrive c).blocks := ih hfront
    rw [State.itemsOf_concat, State.after_concat]
    by_cases hc : c = '{' ∨ c = '}'
    · obtain ⟨mid, s₁, outcome, s', hover, hs₁, hclaim, hitems, hstate⟩ :=
        (exposed_arrive hfront c).exists_claim hs hc
      rw [(State.scan_eq _ c).1, (State.scan_eq _ c).2, hitems, hstate, ← List.append_assoc]
      exact hclaim.braced hs₁ (hover.braced hs hb)
    · obtain ⟨hopening, hclosing⟩ := not_or.1 hc
      exact ((State.preserves_braced cs hopening hclosing).scan _ ⟨hs, hb⟩).concat_of_ne hopening
        hclosing

/-- A closing brace outside all blocks is reported, and at most indentation ends at it. -/
theorem scan_stray (h : Text.Bare cs) (hblocks : (State.after {} cs).blocks = []) :
    (∃ f : Finding, findingsOf ((State.after {} cs).scan '}').1.items = [f] ∧
      f.key = .unexpectedCharacterInBlockContent) ∧
    ∀ t ∈ tokensOf ((State.after {} cs).scan '}').1.items, t.type = .whitespace := by
  have hs := (State.settled_after cs).arrive '}'
  obtain ⟨mid, s₁, outcome, s', hover, hs₁, hclaim, hitems, -⟩ :=
    (exposed_arrive h '}').exists_claim hs (Or.inr rfl)
  rw [(State.scan_eq _ _).1, hitems]
  obtain ⟨hnil, hfindings, htokens⟩ : s₁.blocks = [] ∧ findingsOf mid = [] ∧
      ∀ t ∈ tokensOf mid, t.type = .whitespace := by
    rcases hover with ⟨rfl, rfl⟩ | ⟨rule, t, s₂, hleaf, htype, hwhite, rfl, rfl⟩
    · exact ⟨hblocks, rfl, by simp⟩
    · have hstarts := (hleaf.blocks_of_leaf hs rfl htype []).2
      have harrive : ((State.after {} cs).arrive '}').blocks = [] := hblocks
      rw [harrive, List.map_nil] at hstarts
      have hnil : (s₂.recordCompleted t).blocks = [] := by
        rw [← List.map_eq_nil_iff (f := OpenBlock.start), ← starts_accept _ t]
        exact hstarts
      refine ⟨List.map_eq_nil_iff.1 hstarts, findingsOf_complete _ _, ?_⟩
      intro u hu
      have htokens : tokensOf (s₂.complete t).1 = [t.linkedAfter s₂.lastTopLevel] :=
        (Forest.tokensOf_accept_of_nil [] t hnil).1
      rw [htokens, List.mem_singleton] at hu
      rw [hu, Token.type_linkedAfter]
      exact hwhite rfl hblocks
  rcases hclaim.block_cases with ⟨hc, -⟩ | ⟨-, b, hb, -⟩ | ⟨-, -, -, ht, f, hf, hkey⟩
  · exact absurd hc (by decide)
  · simp [hnil] at hb
  · rw [Outcome.result, ht, findingsOf_append, tokensOf_append, hfindings, hf]
    refine ⟨⟨f, rfl, hkey⟩, ?_⟩
    simpa using htokens

end Run

/-! ## The end of the source -/

section End

variable {s : State} {items : List Item}

/-- The span of a block that ends with the source unless it has ended before. -/
def endedBy (stop : Position) (span : Position × Option Position) : Position × Option Position :=
  (span.1, some (span.2.getD stop))

/-- A finished block has its end already. -/
theorem map_endedBy (stop : Position) (ts : List Token) :
    (ts.flatMap Token.blockSpans).map (endedBy stop) = ts.flatMap Token.blockSpans := by
  rw [Token.flatMap_blockSpans, List.map_map]
  rfl

theorem blockSpans_finishBlock {stop : Position} {last : Option TokenId} {b : OpenBlock}
    {around : List OpenBlock} (hlt : ∀ start ∈ (b :: around).map OpenBlock.start, start < stop) :
    blockSpans (items ++ (State.finishBlock stop last b around).items) [] =
      (blockSpans items (b :: around)).map (endedBy stop) := by
  induction around generalizing b with
  | nil =>
    have hclose := blockSpans_close (hlt b.start (by simp))
    simp [State.finishBlock, blockSpans, map_endedBy, hclose, endedBy]
  | cons outer rest ih =>
    have hclose := blockSpans_close (hlt b.start (by simp))
    have htokens : tokensOf (items ++ (State.finishBlock stop last b (outer :: rest)).items) =
        tokensOf (items ++
          (State.finishBlock stop last (outer.add (b.close stop)) rest).items) := by
      simp [State.finishBlock]
    -- the block is closed as the last child of the next, which then is the innermost
    rw [blockSpans_congr htokens, ih]
    · simp [blockSpans, OpenBlock.children_add, map_endedBy, hclose, endedBy]
    · intro start hstart
      exact hlt start (List.mem_cons_of_mem _ hstart)

theorem blocks_finishCurrent (items : List Item) (s : State) :
    blockSpans (items ++ s.finishCurrent.1) s.finishCurrent.2.blocks = blockSpans items s.blocks ∧
      s.finishCurrent.2.blocks.map OpenBlock.start = s.blocks.map OpenBlock.start ∧
      s.finishCurrent.2.next = s.next := by
  cases ho : s.current with
  | none => simp [State.finishCurrent, State.closeCurrent?, ho]
  | some o =>
    let s₀ := { s with current := none }
    let t := o.close (State.finalContent o.kind s.window.text) s.next
    have hspans := blockSpans_accept
      (items ++ if t.type = .whitespace then [] else [s₀.unclosed t.type t.start]) s₀ t
    have hleaf : t.blockSpans = [] := Token.blockSpans_ofLeaf ..
    have hitems : tokensOf
        (items ++ if t.type = .whitespace then [] else [s₀.unclosed t.type t.start]) =
        tokensOf items := by
      split <;> simp [State.unclosed]
    rw [List.append_assoc, hleaf, List.append_nil, blockSpans_congr hitems] at hspans
    simp only [State.finishCurrent, State.closeCurrent?, ho, Option.map_some]
    exact ⟨hspans, starts_accept s₀ t, State.next_accept s₀ t⟩

/-- At the end of the source every open block ends. -/
theorem blockSpans_finish (hcomment : s.comment = none)
    (hlt : ∀ start ∈ s.blocks.map OpenBlock.start, start < s.next) :
    blockSpans (items ++ s.finish.items) [] = (blockSpans items s.blocks).map (endedBy s.next) := by
  obtain ⟨hspans, hstarts, hnext⟩ := blocks_finishCurrent items s
  have hfinish : s.finishComment = ([], s) := by simp [State.finishComment, hcomment]
  have htokens : tokensOf (items ++ s.finish.items) =
      tokensOf (items ++ s.finishCurrent.1 ++ s.finishCurrent.2.finishBlocks.items) := by
    simp [State.finish, hfinish]
  rw [blockSpans_congr htokens, ← hspans]
  rw [← hstarts, ← hnext] at hlt
  rw [← hnext, State.finishBlocks]
  cases hblocks : s.finishCurrent.2.blocks with
  | nil => simp [blockSpans, map_endedBy]
  | cons b around =>
    rw [hblocks] at hlt
    exact blockSpans_finishBlock hlt

/-- The finding is about a block that is still open at the end of the source. -/
def isUnclosedBlock (f : Finding) : Bool := f.issue = .unclosed .block

theorem countP_finishBlock (stop : Position) (last : Option TokenId) (b : OpenBlock)
    (around : List OpenBlock) :
    (findingsOf (State.finishBlock stop last b around).items).countP isUnclosedBlock =
      around.length + 1 := by
  induction around generalizing b with
  | nil => rfl
  | cons outer rest ih =>
    simp [State.finishBlock, ih, isUnclosedBlock, Finding.spanning]

theorem countP_finishCurrent (s : State) :
    (findingsOf s.finishCurrent.1).countP isUnclosedBlock = 0 := by
  cases ho : s.current with
  | none => simp [State.finishCurrent, State.closeCurrent?, ho]
  | some o =>
    cases hkind : o.kind <;>
      simp [State.finishCurrent, State.closeCurrent?, ho, hkind, State.finalContent,
        OpenToken.close, Leaf.type, State.unclosed, findingsOf_accept, isUnclosedBlock,
        Finding.spanning]

theorem countP_leftover (s : State) : (findingsOf s.leftover).countP isUnclosedBlock = 0 := by
  unfold State.leftover
  split <;> simp [isUnclosedBlock, Finding.spanning]

/-- One finding is made for every block that is open at the end of the source, and none before. -/
theorem countP_scanText {cs : List Char} (hcomment : (State.after {} cs).comment = none) :
    (findingsOf (scanText cs)).countP isUnclosedBlock = (State.after {} cs).blocks.length := by
  have hscan : (findingsOf (State.itemsOf {} cs)).countP isUnclosedBlock = 0 := by
    rw [List.countP_eq_zero]
    intro f hf hblock
    have hstray := State.isStray_of_mem_itemsOf cs f hf
    rw [isUnclosedBlock, decide_eq_true_eq] at hblock
    simp [hblock, Issue.isStray] at hstray
  have hfinish : (State.after {} cs).finishComment = ([], State.after {} cs) := by
    simp [State.finishComment, hcomment]
  have hlength : (State.after {} cs).finishCurrent.2.blocks.length =
      (State.after {} cs).blocks.length := by
    simpa using congrArg List.length (blocks_finishCurrent [] (State.after {} cs)).2.1
  have hblocks : (findingsOf (State.after {} cs).finishCurrent.2.finishBlocks.items).countP
      isUnclosedBlock = (State.after {} cs).finishCurrent.2.blocks.length := by
    unfold State.finishBlocks
    split
    · next hnil => simp [hnil]
    · next b around hcons => rw [countP_finishBlock, hcons, List.length_cons]
  simp [scanText, State.finish, hscan, hfinish, countP_finishCurrent, countP_leftover, hblocks,
    hlength]

end End

end Scan

end Stylesheet
