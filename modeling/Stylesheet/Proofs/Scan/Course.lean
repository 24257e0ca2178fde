import Mathlib.Logic.Function.Iterate
import Stylesheet.Proofs.Excerpt
import Stylesheet.Proofs.Scan.Past

set_option autoImplicit false

/-! # The course of a character through the rules

A character is offered to the rules in order, and after a hand-off to nearly all of them once more.
`State.scan` makes room for a fixed number of hand-offs. `Course.step` is one round of the same loop
without any such room: it applies the next rule, whichever that is, and after a hand-off the rules
to be tried are refilled. No measure decreases along the way, and the loop might go on for ever if
hand-offs followed one another. They do not, in whatever state the character arrives. A rule that
hands it on leaves neither a token nor a comment open, and alone in the window the character can
finish a block at most (`Claim.of_handed`), which hands nothing on. So the loop ends after one
hand-off or none, and it ends where `State.scan` does (`State.course_ends`). -/

namespace Stylesheet

/-! ## Comments in a window -/

/-- The comment stands in the window where it says, at a slash and a star. -/
def OpenComment.BeginsIn (k : OpenComment) (w : Window) : Prop :=
  ∃ before inside, w.text = before ++ ['/', '*'] ++ inside ∧ Text.byteSize before = k.offset

theorem OpenComment.BeginsIn.push {k : OpenComment} {w : Window} (h : k.BeginsIn w) (c : Char)
    (p : Position) : k.BeginsIn (w.push c p) := by
  obtain ⟨before, inside, htext, hsize⟩ := h
  exact ⟨before, inside ++ [c], by simp [htext], hsize⟩

/-- Between the delimiters of a comment that ends with the window stands some text. -/
theorem OpenComment.BeginsIn.exists_slice? {k : OpenComment} {w : Window} (h : k.BeginsIn w)
    (hbytes : w.bytes = Text.byteSize w.text) (hsize : k.offset + 4 ≤ w.bytes)
    (hends : w.endsIn ['*', '/'] = true) :
    ∃ inside, Text.slice? (k.offset + 2) (w.bytes - 2) w.text = some inside := by
  obtain ⟨before, inside, htext, hoffset⟩ := h
  obtain ⟨front, rest, hcells, rfl, hrest⟩ :=
    List.map_eq_append_iff.1 (htext.trans (List.append_assoc _ _ _))
  obtain ⟨slash, more, rfl, hslash, hmore⟩ := List.map_eq_cons_iff.1 hrest
  obtain ⟨star, tail, rfl, hstar, rfl⟩ := List.map_eq_cons_iff.1 hmore
  -- the delimiters do not overlap, so the end lies in what follows the opening
  have hsuffix : ['*', '/'] <:+ Cell.text tail := by
    by_contra hopen
    rw [← Window.isOpen_iff hbytes hcells hslash hstar, hoffset] at hopen
    rcases hopen with hopen | hopen
    · omega
    · simp [hends] at hopen
  obtain ⟨raw, hraw⟩ := hsuffix
  rw [← Cell.text, ← Cell.text, ← hraw, ← List.append_assoc] at htext
  refine ⟨raw, ?_⟩
  rw [← hoffset]
  exact Text.slice?_of_comment hbytes htext

namespace Scan

/-! ## The loop -/

/-- A rule that was applied to a character, and what it made of it. -/
structure Offer where
  rule : Rule
  outcome : Outcome
deriving DecidableEq, Repr

namespace Offer

/-- The rule left the character to the rules after it. -/
def skipped (rule : Rule) : Offer := ⟨rule, .skip⟩

/-- The rule finished a token and handed the character `c` on. -/
def handsOn (c : Char) (offer : Offer) : Bool :=
  offer.outcome.token?.any fun t => State.continues t.type offer.rule c

/-- The tokens that were finished, in order. -/
def tokens (offers : List Offer) : List Token := offers.filterMap (·.outcome.token?)

@[simp] theorem tokens_nil : tokens [] = [] := rfl

@[simp] theorem tokens_cons (offer : Offer) (offers : List Offer) :
    tokens (offer :: offers) = offer.outcome.token?.toList ++ tokens offers := by
  cases h : offer.outcome.token? <;> simp [tokens, h]

@[simp] theorem token?_skipped (rule : Rule) : (skipped rule).outcome.token? = none := rfl

@[simp] theorem tokens_append (offers more : List Offer) :
    tokens (offers ++ more) = tokens offers ++ tokens more :=
  List.filterMap_append

@[simp] theorem tokens_skipped (rules : List Rule) : tokens (rules.map skipped) = [] := by
  simp [tokens, skipped, Outcome.token?]

@[simp] theorem countP_skipped (c : Char) (rules : List Rule) :
    rules.countP (handsOn c ∘ skipped) = 0 := by
  simp [List.countP_eq_zero, handsOn]

end Offer

/-- How far a character has come. -/
structure Course where
  /-- The rules that are still to be tried. -/
  rules : List Rule
  state : State
  /-- The rules that have been applied. -/
  offers : List Offer
  /-- What has come out. -/
  items : List Item

namespace Course

/-- The character `c` arrives in the state `s`. -/
def start (s : State) (c : Char) : Course := ⟨Rule.order, s.push c, [], []⟩

/-- A rule claims the character `c`, which is the end unless the rule hands it on. -/
def claimed (k : Course) (c : Char) (rule : Rule) (outcome : Outcome) (s : State) : Course :=
  let offers := k.offers ++ [⟨rule, outcome⟩]
  match outcome.token? with
  | none => ⟨[], s, offers, k.items ++ outcome.found⟩
  | some t =>
    let (items, completed) := s.complete t
    let items := k.items ++ outcome.found ++ items
    if State.continues t.type rule c then
      ⟨State.rescanRules rule, completed.pushAgain c, offers, items⟩
    else ⟨[], completed, offers, items⟩

/-- Applies the next rule to the character `c`; without one the course is at its end. -/
def step (c : Char) (k : Course) : Course :=
  match k.rules with
  | [] => k
  | rule :: rules =>
    match rule.scan k.state with
    | (.skip, s) => ⟨rules, s, k.offers ++ [.skipped rule], k.items⟩
    | (outcome, s) => k.claimed c rule outcome s

variable {c : Char}

theorem step_of_skip {k : Course} {rule : Rule} {rules : List Rule} {s : State}
    (hrules : k.rules = rule :: rules) (hscan : rule.scan k.state = (.skip, s)) :
    k.step c = ⟨rules, s, k.offers ++ [.skipped rule], k.items⟩ := by
  simp [step, hrules, hscan]

theorem step_of_claim {k : Course} {rule : Rule} {rules : List Rule} {outcome : Outcome} {s : State}
    (hrules : k.rules = rule :: rules) (hscan : rule.scan k.state = (outcome, s))
    (hclaim : outcome ≠ .skip) : k.step c = k.claimed c rule outcome s := by
  simp only [step, hrules, hscan]

/-- The rules are applied until one claims the character or none is left. -/
theorem exists_pass (k : Course) :
    ∃ n ≤ k.rules.length, ∃ skipped : List Rule,
      (step c)^[n] k =
        match State.firstClaim k.rules k.state with
        | (none, s) => ⟨[], s, k.offers ++ skipped.map .skipped, k.items⟩
        | (some (rule, outcome), s) =>
          claimed ⟨[], s, k.offers ++ skipped.map .skipped, k.items⟩ c rule outcome s := by
  obtain ⟨rules, s, offers, items⟩ := k
  -- a rule that skips leaves the rules after it and the state it moved on
  induction rules generalizing s offers with
  | nil => exact ⟨0, le_rfl, [], by simp [State.firstClaim]⟩
  | cons rule rules ih =>
    rcases hscan : rule.scan s with ⟨outcome, s'⟩
    by_cases hskip : outcome = .skip
    · subst hskip
      obtain ⟨n, hn, skipped, hgo⟩ := ih s' (offers ++ [.skipped rule])
      refine ⟨n + 1, Nat.succ_le_succ hn, rule :: skipped, ?_⟩
      rw [Function.iterate_succ_apply, step_of_skip rfl hscan, hgo]
      simp [State.firstClaim, hscan]
    · refine ⟨1, by simp, [], ?_⟩
      rw [Function.iterate_one, step_of_claim rfl hscan hskip, firstClaim_of_scan hscan hskip]
      simp [claimed]

/-- A pass in which no rule hands the character on is the last. -/
theorem exists_last_pass (k : Course)
    (hstays : ∀ rule outcome s t, State.firstClaim k.rules k.state = (some (rule, outcome), s) →
      outcome.token? = some t → State.continues t.type rule c = false) (passes : Nat) :
    ∃ n ≤ k.rules.length, ∃ (skipped : List Rule) (last : Option Offer),
      (step c)^[n] k =
        ⟨[], (State.scanPasses c (passes + 1) k.rules k.state).2,
          k.offers ++ (skipped.map .skipped ++ last.toList),
          k.items ++ (State.scanPasses c (passes + 1) k.rules k.state).1.items⟩ ∧
      ∀ offer ∈ last, ∃ s,
        State.firstClaim k.rules k.state = (some (offer.rule, offer.outcome), s) := by
  obtain ⟨n, hn, skipped, hgo⟩ := k.exists_pass (c := c)
  refine ⟨n, hn, skipped, ?_⟩
  rw [hgo, State.scanPasses]
  rcases hfirst : State.firstClaim k.rules k.state with ⟨_ | ⟨rule, outcome⟩, s⟩
  · exact ⟨none, by simp, by simp⟩
  · refine ⟨some ⟨rule, outcome⟩, ?_, by simp⟩
    cases ht : outcome.token? with
    | none => simp [claimed, ht, Outcome.found]
    | some t => simp [claimed, ht, hstays rule outcome s t hfirst ht, Outcome.found]

/-- After a pass in which a rule hands the character on, the other rules are tried once more. -/
theorem exists_handed (k : Course) {rule : Rule} {outcome : Outcome} {s : State} {t : Token}
    (hfirst : State.firstClaim k.rules k.state = (some (rule, outcome), s))
    (ht : outcome.token? = some t) (hcontinues : State.continues t.type rule c = true) :
    ∃ n ≤ k.rules.length, ∃ skipped : List Rule,
      (step c)^[n] k = ⟨State.rescanRules rule, (s.complete t).2.pushAgain c,
        k.offers ++ skipped.map .skipped ++ [⟨rule, outcome⟩],
        k.items ++ outcome.found ++ (s.complete t).1⟩ := by
  obtain ⟨n, hn, skipped, hgo⟩ := k.exists_pass (c := c)
  refine ⟨n, hn, skipped, ?_⟩
  rw [hgo, hfirst]
  simp [claimed, ht, hcontinues]

end Course

/-! ## After a hand-off -/

/-- The state offers the character `c` once more, after it finished a token of the given type. -/
structure State.Handed (s : State) (type : TokenType) (c : Char) : Prop where
  last : s.window.last? = some c
  body : s.window.body = []
  current : s.current = none
  comment : s.comment = none
  char : (type = .selector ∨ type = .atRule) ∧ c = '{' ∨ type = .property ∧ c = '}' ∨
    type = .whitespace ∧ Text.isBlank c = false

section Handed

variable {s s' : State} {c : Char} {rule : Rule} {outcome : Outcome} {type : TokenType}

/-- A rule that hands the character on leaves nothing open. -/
theorem Claim.handed (h : Claim s c rule outcome s') {t : Token} (ht : outcome.token? = some t)
    (hcontinues : State.continues t.type rule c = true) :
    ((s'.complete t).2.pushAgain c).Handed t.type c := by
  have hvisible := h.isBlank_eq_false ht hcontinues
  suffices hleft : s'.current = none ∧ s'.comment = none ∧
      ((t.type = .selector ∨ t.type = .atRule) ∧ c = '{' ∨ t.type = .property ∧ c = '}' ∨
        t.type = .whitespace ∧ Text.isBlank c = false) by
    obtain ⟨hcurrent, hcomment, hchar⟩ := hleft
    refine ⟨rfl, rfl, ?_, ?_, hchar⟩
    · simp [State.pushAgain, hcurrent]
    · simp [State.pushAgain, hcomment]
  cases h with
  | closeAtRule hk | selector hk | closeProperty hk | closeWhitespace hk =>
    obtain rfl := Option.some.inj ht
    refine ⟨rfl, hk, ?_⟩
    simp_all [OpenToken.close, Leaf.type]
  | closeComment | closeBlock | closeBlockAfter =>
    obtain rfl := Option.some.inj ht
    simp [OpenComment.close, OpenBlock.close, Leaf.type] at hcontinues
  | _ => simp [Outcome.token?] at ht

/-- Alone in the window the character is claimed by a rule that may take it over, and finishes a
block if anything. -/
theorem Claim.of_handed (h : Claim s c rule outcome s') (hs : s.Handed type c) :
    Rule.handsOff type rule c = true ∧ ∀ t, outcome.token? = some t → t.type = .block := by
  have hspan : Cell.span? s.window.body = none := by
    rw [hs.body]
    rfl
  have hchar := hs.char
  cases h with
  | inComment k hk | stripComment k hk | closeComment k hk => simp [hs.comment] at hk
  | openComment hk star slash before hrecent =>
    have hbody := hs.body
    simp [Window.body, hrecent] at hbody
  | closeAtRule hk t hcurrent | closeProperty hk hblocks t hcurrent | inWhitespace hk t hcurrent
  | closeWhitespace hk t hcurrent => simp [hs.current] at hcurrent
  | selector hk hc hcurrent hstring hselector start stop hvisible
  | rejectContent hk hblocks hcurrent hc hstring start stop hvisible
  | openUnclaimed hk hc hcurrent hstring start stop hvisible
  | closeBlockAfter hk hcurrent hc hstring start stop hvisible
  | strayContent hk hcurrent hc hstring start stop hvisible => simp [hspan] at hvisible
  | openWhitespace hk hcurrent hblank =>
    -- what is handed on is visible
    rcases hchar with ⟨-, rfl⟩ | ⟨-, rfl⟩ | ⟨-, hvisible⟩
    · exact absurd hblank (by decide)
    · exact absurd hblank (by decide)
    · simp [hvisible] at hblank
  | openAtRule hk hcurrent hc | openProperty hk hblocks hcurrent hc
  | rejectBlank hk hblocks hcurrent hc | openBlock hk hc | strayBrace hk hcurrent hc =>
    subst hc
    refine ⟨?_, by simp [Outcome.token?]⟩
    rcases hchar with ⟨rfl | rfl, hc⟩ | ⟨rfl, hc⟩ | ⟨rfl, -⟩ <;> simp_all [Rule.handsOff]
  | closeBlock hk hcurrent hc hstring hnone b =>
    subst hc
    constructor
    · rcases hchar with ⟨-, hc⟩ | ⟨rfl, -⟩ | ⟨rfl, -⟩
      · exact absurd hc (by decide)
      · rfl
      · rfl
    · intro t ht
      obtain rfl := Option.some.inj ht
      rfl

/-- The first claim is one of the ways in which a rule can claim the character. -/
theorem claim_of_firstClaim {rules : List Rule} (hlast : s.window.last? = some c)
    (hrules : Rule.lineEnding ∉ rules)
    (hfirst : State.firstClaim rules s = (some (rule, outcome), s')) :
    rule ∈ rules ∧ Claim s c rule outcome s' := by
  rcases firstClaim_cases rules hlast hrules with ⟨hnone, -⟩ | ⟨_, _, _, hmem, hsome, hclaim⟩
  · simp [hnone] at hfirst
  · cases hsome.symm.trans hfirst
    exact ⟨hmem, hclaim⟩

theorem length_rescanRules_le (rule : Rule) (hrule : rule ∈ Rule.order.tail) :
    (State.rescanRules rule).length ≤ 5 := by
  revert rule
  decide

/-- The pass over a character that was handed on is the last one: a rule that may take the character
over claims it, if any does, and does not hand it on. -/
theorem Course.exists_last_pass_of_handed (hs : s.Handed type c) {rules : List Rule}
    (hrules : Rule.lineEnding ∉ rules) (offers : List Offer) (items : List Item) (passes : Nat) :
    ∃ n ≤ rules.length, ∃ (skipped : List Rule) (last : Option Offer),
      (step c)^[n] ⟨rules, s, offers, items⟩ =
        ⟨[], (State.scanPasses c (passes + 1) rules s).2,
          offers ++ (skipped.map .skipped ++ last.toList),
          items ++ (State.scanPasses c (passes + 1) rules s).1.items⟩ ∧
      ∀ offer ∈ last, offer.handsOn c = false ∧ Rule.handsOff type offer.rule c = true ∧
        ∀ t, offer.outcome.token? = some t → t.type = .block := by
  have hstays : ∀ rule outcome s' t, State.firstClaim rules s = (some (rule, outcome), s') →
      outcome.token? = some t → State.continues t.type rule c = false := by
    intro rule outcome s' t hfirst ht
    have hclaim := (claim_of_firstClaim hs.last hrules hfirst).2
    simp [(hclaim.of_handed hs).2 t ht]
  obtain ⟨n, hn, skipped, last, hgo, hlast⟩ :=
    exists_last_pass ⟨rules, s, offers, items⟩ hstays passes
  refine ⟨n, hn, skipped, last, hgo, ?_⟩
  intro offer hoffer
  obtain ⟨s', hfirst⟩ := hlast offer hoffer
  obtain ⟨htakes, hblock⟩ := (claim_of_firstClaim hs.last hrules hfirst).2.of_handed hs
  refine ⟨?_, htakes, hblock⟩
  cases ht : offer.outcome.token? with
  | none => simp [Offer.handsOn, ht]
  | some t => simp [Offer.handsOn, ht, hblock t ht]

end Handed

/-! ## The whole course -/

/-- At most one rule hands the character on; then at most one more token is finished, which is a
block, and only a rule that may take the character over claims it. -/
structure Orderly (c : Char) (offers : List Offer) : Prop where
  handOffs : offers.countP (Offer.handsOn c) ≤ 1
  tokens : (Offer.tokens offers).length ≤ 2
  blocks : ∀ t ∈ (Offer.tokens offers).tail, t.type = .block
  handsOff : offers.Pairwise fun offer later => ∀ t, offer.outcome.token? = some t →
    later.outcome ≠ .skip → Rule.handsOff t.type later.rule c = true

section Orderly

variable {c : Char} {offers : List Offer}

/-- Rules that leave the character alone change nothing. -/
theorem Orderly.after_skipped (h : Orderly c offers) (rules : List Rule) :
    Orderly c (rules.map .skipped ++ offers) where
  handOffs := by simpa using h.handOffs
  tokens := by simpa using h.tokens
  blocks := by simpa using h.blocks
  handsOff := by
    induction rules with
    | nil => exact h.handsOff
    | cons rule rules ih => exact List.pairwise_cons.2 ⟨by simp, ih⟩

theorem orderly_nil : Orderly c [] := ⟨by simp, by simp, by simp, .nil⟩

/-- One claim is orderly by itself. -/
theorem orderly_singleton (offer : Offer) : Orderly c [offer] where
  handOffs := List.countP_le_length
  tokens := by cases h : offer.outcome.token? <;> simp [h]
  blocks := by cases h : offer.outcome.token? <;> simp [h]
  handsOff := List.pairwise_singleton _ _

/-- So is a pass, in which rules leave the character alone until one may claim it. -/
theorem orderly_pass (skipped : List Rule) (last : Option Offer) :
    Orderly c (skipped.map .skipped ++ last.toList) := by
  cases last with
  | none => exact orderly_nil.after_skipped skipped
  | some last => exact (orderly_singleton last).after_skipped skipped

/-- A claim that hands the character on may be followed by one that does not. -/
theorem orderly_of_handed {offer : Offer} {skipped : List Rule} {last : Option Offer} {t : Token}
    (ht : offer.outcome.token? = some t)
    (hlast : ∀ later ∈ last, later.handsOn c = false ∧
      Rule.handsOff t.type later.rule c = true ∧
        ∀ u, later.outcome.token? = some u → u.type = .block) :
    Orderly c (offer :: (skipped.map .skipped ++ last.toList)) := by
  have hstays : last.toList.countP (Offer.handsOn c) = 0 := by
    simpa [List.countP_eq_zero] using fun later hlater => (hlast later hlater).1
  have hlength : (Offer.tokens last.toList).length ≤ 1 :=
    (List.length_filterMap_le _ _).trans Option.length_toList_le
  have hblocks : ∀ u ∈ Offer.tokens last.toList, u.type = .block := by
    intro u hu
    obtain ⟨later, hlater, htoken⟩ := List.mem_filterMap.1 hu
    exact (hlast later (Option.mem_toList.1 hlater)).2.2 u htoken
  have hclaims : ∀ later ∈ skipped.map Offer.skipped ++ last.toList, later.outcome ≠ .skip →
      Rule.handsOff t.type later.rule c = true := by
    intro later hlater hclaim
    rcases List.mem_append.1 hlater with hlater | hlater
    · obtain ⟨rule, -, rfl⟩ := List.mem_map.1 hlater
      exact absurd rfl hclaim
    · exact (hlast later (Option.mem_toList.1 hlater)).2.1
  refine ⟨?_, ?_, ?_, List.pairwise_cons.2 ⟨?_, (orderly_pass skipped last).handsOff⟩⟩
  · rw [List.countP_cons, List.countP_append, hstays]
    split <;> simp
  · simpa [ht] using hlength
  · simpa [ht] using hblocks
  · intro later hlater u hu
    obtain rfl := Option.some.inj (ht.symm.trans hu)
    exact hclaims later hlater

end Orderly

/-! ## The end of the course -/

/-- The course of a character ends, in an orderly way and where `State.scan` does. -/
theorem Course.exists_end (s : State) (c : Char) :
    ∃ n ≤ 12, ∃ offers,
      (step c)^[n] (start s c) = ⟨[], (s.scan c).2, offers, (s.scan c).1.items⟩ ∧
        Orderly c offers := by
  have hpasses : s.scan c = State.scanPasses c (6 + 1) Rule.order (s.push c) := rfl
  by_cases hstays : ∀ rule outcome s' t,
      State.firstClaim Rule.order (s.push c) = (some (rule, outcome), s') →
      outcome.token? = some t → State.continues t.type rule c = false
  · obtain ⟨n, hn, skipped, last, hgo, -⟩ := (start s c).exists_last_pass hstays 6
    have hseven : n ≤ 7 := hn
    exact ⟨n, by omega, _, hgo, orderly_pass skipped last⟩
  · simp only [not_forall, Bool.not_eq_false] at hstays
    obtain ⟨rule, outcome, s', t, hfirst, ht, hcontinues⟩ := hstays
    obtain ⟨hmem, hclaim⟩ := claim_of_firstClaim (s := s.arrive c) rfl
      State.lineEnding_not_mem_tail (State.firstClaim_order s c ▸ hfirst)
    obtain ⟨n, hn, skipped, hgo⟩ := (start s c).exists_handed hfirst ht hcontinues
    obtain ⟨m, hm, again, last, hmore, hlast⟩ := exists_last_pass_of_handed
      (hclaim.handed ht hcontinues) (State.lineEnding_not_mem_rescanRules rule)
      ((start s c).offers ++ skipped.map .skipped ++ [⟨rule, outcome⟩])
      ((start s c).items ++ outcome.found ++ (s'.complete t).1) 5
    have hseven : n ≤ 7 := hn
    have hfive : m ≤ 5 := hm.trans (length_rescanRules_le rule hmem)
    refine ⟨m + n, by omega,
      skipped.map .skipped ++ ⟨rule, outcome⟩ :: (again.map .skipped ++ last.toList), ?_,
      (orderly_of_handed ht hlast).after_skipped skipped⟩
    obtain ⟨hitems, hstate⟩ := State.scanPasses_of_handoff 6 hfirst ht hcontinues
    rw [Function.iterate_add_apply, hgo, hmore, hpasses, hitems, hstate]
    simp [start]

/-- From whatever state, the course of a character ends where `State.scan` does, after few rules and
in an orderly way. What is cut out of the window on the way is there: when the open comment stands
where it says it does and the window knows its size, and the character ends the comment, some text
stands between the delimiters. -/
theorem State.course_ends (s : State) (c : Char) :
    ∃ n ≤ 12, ∃ offers,
      (Course.step c)^[n] (.start s c) = ⟨[], (s.scan c).2, offers, (s.scan c).1.items⟩ ∧
        Orderly c offers ∧
        ∀ k, s.comment = some k → k.BeginsIn s.window →
          s.window.bytes = Text.byteSize s.window.text →
          k.offset + 4 ≤ (s.push c).window.bytes → (s.push c).window.endsIn ['*', '/'] = true →
          ∃ inside, Text.slice? (k.offset + 2) ((s.push c).window.bytes - 2)
            (s.push c).window.text = some inside := by
  obtain ⟨n, hn, offers, hgo, horderly⟩ := Course.exists_end s c
  refine ⟨n, hn, offers, hgo, horderly, ?_⟩
  intro k _ hbegins hbytes hsize hends
  exact (hbegins.push c s.next).exists_slice? (Window.bytes_push hbytes c s.next) hsize hends

/-- A closing brace after indentation ends the indentation and then the block. -/
example : (Offer.tokens (((Course.step '}')^[12]
    (.start (State.after {} ['a', '{', '\n']) '}')).offers)).map Token.type =
    [.whitespace, .block] := by decide

end Scan

end Stylesheet
