import Stylesheet.Proofs.Scan.Growth
import Stylesheet.Proofs.Scan.Past
import Stylesheet.Proofs.Scan.Reading

set_option autoImplicit false

/-! # What stands before a block

The brace that opens a block may first finish a selector, an at-rule or indentation; the block then
comes right after that token (`Opening`). Otherwise it comes after whatever was finished last in the
same sequence, but this is never an at-rule with a block: between two characters no sequence that is
still open ends in one. `Heads` says this of one block, by its brace and by the token before it, and
`Headers` of all blocks of a run. -/

namespace Stylesheet

/-- The token is an at-rule that was ended by an opening brace. -/
def Token.isBlockRule : Token → Bool
  | .leaf _ (.atRule _ _ isBlock) => isBlock
  | _ => false

@[simp] theorem Token.isBlockRule_withPlace (p : Placement) (t : Token) :
    (t.withPlace p).isBlockRule = t.isBlockRule := by
  cases t with
  | leaf _ content => cases content <;> rfl
  | block => rfl

/-! ## Blocks and the tokens before them -/

mutual

/-- Every block in the token has the property, given the token right before it and its start. -/
def Token.Headed (P : Option Token → Position → Prop) (previous : Option Token) : Token → Prop
  | .leaf .. => True
  | .block place children => P previous place.start ∧ Token.HeadedAll P none children

/-- Every block in the sequence, of which the first token comes right after `previous`, has the
property. -/
def Token.HeadedAll (P : Option Token → Position → Prop) (previous : Option Token) :
    List Token → Prop
  | [] => True
  | t :: ts => t.Headed P previous ∧ Token.HeadedAll P (some t) ts

end

section Headed

variable {P Q : Option Token → Position → Prop} {previous : Option Token}

theorem Token.headedAll_append {front ts : List Token} :
    Token.HeadedAll P previous (front ++ ts) ↔
      Token.HeadedAll P previous front ∧ Token.HeadedAll P (front.getLast?.or previous) ts := by
  induction front generalizing previous with
  | nil => simp [Token.HeadedAll]
  | cons u front ih =>
    have hlast : front.getLast?.or (some u) = (u :: front).getLast?.or previous := by
      rw [List.getLast?_cons]
      cases front.getLast? <;> rfl
    rw [List.cons_append, Token.HeadedAll, Token.HeadedAll, ih, hlast, and_assoc]

theorem Token.headedAll_concat {ts : List Token} {t : Token} :
    Token.HeadedAll P none (ts ++ [t]) ↔ Token.HeadedAll P none ts ∧ t.Headed P ts.getLast? := by
  rw [Token.headedAll_append, Option.or_none, Token.HeadedAll, Token.HeadedAll, and_true]

theorem Token.headed_withPlace {t : Token} {p : Placement} (hp : p.start = t.start) :
    (t.withPlace p).Headed P previous ↔ t.Headed P previous := by
  cases t with
  | leaf => rfl
  | block place children =>
    rw [Token.withPlace, Token.Headed, Token.Headed, hp]
    rfl

mutual

theorem Token.Headed.mono (hPQ : ∀ previous p, P previous p → Q previous p) (t : Token)
    {u : Option Token} (h : t.Headed P u) : t.Headed Q u := by
  cases t with
  | leaf => trivial
  | block place children => exact ⟨hPQ _ _ h.1, Token.HeadedAll.mono hPQ children h.2⟩

theorem Token.HeadedAll.mono (hPQ : ∀ previous p, P previous p → Q previous p) (ts : List Token)
    {u : Option Token} (h : Token.HeadedAll P u ts) : Token.HeadedAll Q u ts := by
  cases ts with
  | nil => trivial
  | cons t ts => exact ⟨Token.Headed.mono hPQ t h.1, Token.HeadedAll.mono hPQ ts h.2⟩

end

mutual

theorem Token.Headed.children (t : Token) {u : Option Token} (h : t.Headed P u) :
    ∀ c ∈ t.preorder, Token.HeadedAll P none c.children := by
  intro c hc
  cases t with
  | leaf place content =>
    rw [List.mem_singleton.1 hc]
    trivial
  | block place ts =>
    rcases List.mem_cons.1 hc with rfl | hc
    · exact h.2
    · exact Token.HeadedAll.children ts h.2 c hc

/-- The property holds in every sequence of the run. -/
theorem Token.HeadedAll.children (ts : List Token) {u : Option Token}
    (h : Token.HeadedAll P u ts) : ∀ c ∈ preorderAll ts, Token.HeadedAll P none c.children := by
  intro c hc
  cases ts with
  | nil => simp [preorderAll] at hc
  | cons t ts =>
    rcases List.mem_append.1 hc with hc | hc
    · exact Token.Headed.children t h.1 c hc
    · exact Token.HeadedAll.children ts h.2 c hc

end

end Headed

namespace Scan

/-! ## Open sequences -/

/-- The last token of the innermost sequence that is still open. -/
def lastOf (items : List Item) : List OpenBlock → Option Token
  | [] => (tokensOf items).getLast?
  | b :: _ => b.children.getLast?

/-- Every block of a run, finished or open, has the property. -/
def Headers (P : Option Token → Position → Prop) (items : List Item) : List OpenBlock → Prop
  | [] => Token.HeadedAll P none (tokensOf items)
  | b :: blocks => Headers P items blocks ∧ P (lastOf items blocks) b.start ∧
      Token.HeadedAll P none b.children

section Headers

variable {P Q : Option Token → Position → Prop} {items items' : List Item}
  {blocks : List OpenBlock} {s : State}

theorem lastOf_congr (h : tokensOf items' = tokensOf items) :
    lastOf items' blocks = lastOf items blocks := by
  cases blocks <;> simp [lastOf, h]

theorem headers_congr (h : tokensOf items' = tokensOf items) :
    Headers P items' blocks ↔ Headers P items blocks := by
  induction blocks with
  | nil => simp [Headers, h]
  | cons b blocks ih => simp [Headers, ih, lastOf_congr h]

theorem Headers.mono (hPQ : ∀ previous p, P previous p → Q previous p)
    (h : Headers P items blocks) : Headers Q items blocks := by
  induction blocks with
  | nil => exact Token.HeadedAll.mono hPQ _ h
  | cons b blocks ih => exact ⟨ih h.1, hPQ _ _ h.2.1, Token.HeadedAll.mono hPQ _ h.2.2⟩

theorem Headers.outermost (h : Headers P items blocks) :
    Token.HeadedAll P none (tokensOf items) := by
  induction blocks with
  | nil => exact h
  | cons b blocks ih => exact ih h.1

/-- A finished token becomes the last of the innermost sequence. -/
theorem Headers.accept (h : Headers P items s.blocks) {t : Token}
    (ht : t.Headed P (lastOf items s.blocks)) :
    Headers P (items ++ (s.accept t).1) (s.accept t).2.blocks ∧
      ∃ p : Placement, p.id = t.id ∧
        lastOf (items ++ (s.accept t).1) (s.accept t).2.blocks = some (t.withPlace p) := by
  cases hblocks : s.blocks with
  | nil =>
    obtain ⟨htokens, hnil, -⟩ := Forest.tokensOf_accept_of_nil items t hblocks
    rw [hblocks] at h ht
    rw [hnil, Headers, lastOf, htokens]
    refine ⟨Token.headedAll_concat.2 ⟨h, ?_⟩, { t.place with previous := s.lastTopLevel }, rfl,
      by simp [Token.linkedAfter]⟩
    rw [Token.linkedAfter, Token.headed_withPlace (by rfl)]
    exact ht
  | cons b blocks =>
    obtain ⟨htokens, hcons, -⟩ := Forest.tokensOf_accept_of_cons items t hblocks
    rw [hblocks] at h ht
    rw [hcons, headers_congr htokens, Headers, lastOf, OpenBlock.children_add]
    refine ⟨⟨h.1, h.2.1, Token.headedAll_concat.2 ⟨h.2.2, ?_⟩⟩,
      { t.place with parent := some b.id, previous := b.recent.head?.map Token.id }, rfl,
      by simp [Token.childOf]⟩
    rw [Token.childOf, Token.headed_withPlace (by rfl)]
    exact ht

/-- The innermost block, closed, has the property and so have all the others. -/
theorem Headers.pop {b : OpenBlock} (h : Headers P items (b :: blocks)) (stop : Position) :
    Headers P items blocks ∧ (b.close stop).Headed P (lastOf items blocks) :=
  ⟨h.1, h.2.1, h.2.2⟩

/-- Between two characters the innermost sequence does not end in an at-rule with a block. -/
structure Openers (P : Option Token → Position → Prop) (items : List Item) (s : State) : Prop where
  headers : Headers P items s.blocks
  last : ∀ t, lastOf items s.blocks = some t → t.isBlockRule = false

theorem Openers.congr {s' : State} (h : Openers P items s)
    (htokens : tokensOf items' = tokensOf items) (hblocks : s'.blocks = s.blocks) :
    Openers P items' s' where
  headers := by
    rw [hblocks]
    exact (headers_congr htokens).2 h.headers
  last := by
    rw [hblocks, lastOf_congr htokens]
    exact h.last

end Headers

/-! ## One claim -/

section Step

variable {P : Option Token → Position → Prop} {items : List Item} {s s' : State} {cs : List Char}
  {c : Char} {rule : Rule} {outcome : Outcome}

/-- A claim that finishes no token leaves the blocks alone or opens one. -/
theorem Claim.blocks_cases (h : Claim s c rule outcome s') (ht : outcome.token? = none) :
    s'.blocks = s.blocks ∨
      c = '{' ∧ ∃ id header, s'.blocks = ⟨id, s.position, header, []⟩ :: s.blocks := by
  cases h with
  | openBlock hk hc | openUnclaimed hk hc => exact Or.inr ⟨hc, _, _, rfl⟩
  | closeBlock | closeBlockAfter => simp [Outcome.token?] at ht
  | _ => exact Or.inl rfl

/-- An at-rule with a block is finished by an opening brace. -/
theorem Claim.isBlockRule_eq_false (h : Claim s c rule outcome s') {t : Token}
    (ht : outcome.token? = some t) (hc : c ≠ '{') : t.isBlockRule = false := by
  cases h <;> simp only [Outcome.token?, Option.some.injEq, reduceCtorEq] at ht <;> subst ht <;>
    simp [OpenToken.close, OpenComment.close, OpenBlock.close, Token.ofLeaf, Token.ofChildren,
      Token.isBlockRule, hc]

/-- A finished token has no blocks in it, or is the innermost block. -/
theorem Claim.headers_of_token (h : Claim s c rule outcome s') (hs : s.Offered cs c)
    (hheaders : Headers P items s.blocks) {t : Token} (ht : outcome.token? = some t) :
    Headers P (items ++ outcome.found ++ (s'.complete t).1) (s'.complete t).2.blocks ∧
      ∃ p : Placement, p.id = t.id ∧
        lastOf (items ++ outcome.found ++ (s'.complete t).1) (s'.complete t).2.blocks =
          some (t.withPlace p) := by
  have htokens : tokensOf (items ++ outcome.found) = tokensOf items := by simp
  have haccept (hblocks : Headers P items s'.blocks)
      (hheaded : t.Headed P (lastOf items s'.blocks)) :=
    Headers.accept (s := s'.recordCompleted t) ((headers_congr htokens).2 hblocks) (t := t)
      (by rw [lastOf_congr htokens]; exact hheaded)
  rcases (h.finishes hs ht).2 with
    ⟨id, content, start, rfl, hleaf⟩ | ⟨b, blocks, hb, hb', -, -, rfl⟩
  · exact haccept (by rw [hleaf.blocks]; exact hheaders) trivial
  · rw [hb] at hheaders
    obtain ⟨houter, hclosed⟩ := hheaders.pop s.next
    rw [← hb'] at houter hclosed
    exact haccept houter hclosed

/-- A token that no opening brace finishes is no at-rule with a block. -/
theorem Claim.openers_of_token (h : Claim s c rule outcome s') (hs : s.Offered cs c)
    (hopeners : Openers P items s) {t : Token} (ht : outcome.token? = some t) (hc : c ≠ '{') :
    Openers P (items ++ outcome.found ++ (s'.complete t).1) (s'.complete t).2 := by
  obtain ⟨hheaders, p, -, hlast⟩ := h.headers_of_token hs hopeners.headers ht
  refine ⟨hheaders, ?_⟩
  intro u hu
  rw [hlast, Option.some.injEq] at hu
  rw [← hu, Token.isBlockRule_withPlace]
  exact h.isBlockRule_eq_false ht hc

/-- A token that an opening brace finishes hands the brace on to the rule for blocks. -/
theorem Claim.continues_brace (h : Claim s '{' rule outcome s') (hs : s.Offered cs '{') {t : Token}
    (ht : outcome.token? = some t) :
    State.continues t.type rule '{' = true ∧ Rule.block ∈ State.rescanRules rule := by
  cases h with
  | closeComment k hk _ hends =>
    obtain ⟨front, hfront⟩ := (Window.endsIn_iff _ _).1 hends
    have hlast := hs.last
    rw [← Window.getLast?_text, ← hfront] at hlast
    simp at hlast
  | closeAtRule | selector | closeWhitespace =>
    simp only [Outcome.token?, Option.some.injEq] at ht
    exact ⟨by simp [← ht, OpenToken.close, Leaf.type], by decide⟩
  | closeProperty hk _ _ _ _ _ hc => simp at hc
  | closeBlock hk _ hc | closeBlockAfter hk _ hc => simp at hc
  | _ => simp [Outcome.token?] at ht

/-- An opening brace with nothing before it opens a block. -/
theorem State.OfferedAgain.firstClaim_brace (h : s.OfferedAgain cs '{') {rules : List Rule}
    (hrules : Rule.lineEnding ∉ rules) (hmem : Rule.block ∈ rules) :
    State.firstClaim rules s =
      (some (.block, .consumed), (s.openBlock s.position s.headerStart).clearWindow) := by
  have hspan : Cell.span? s.window.body = none := by
    rw [h.body_eq_nil]
    rfl
  have hscan : Rule.block.scan s =
      (.consumed, (s.openBlock s.position s.headerStart).clearWindow) := by
    have hstring : Text.insideString s.bodyText = false := by
      rw [State.bodyText, h.body_eq_nil]
      rfl
    simp [Rule.scan, h.last, h.comment_eq_none, State.scanBlock, State.currentType,
      h.current_eq_none, State.beginBlock, hstring, hspan]
  refine firstClaim_eq_of_unique h.last hrules hmem hscan (by simp) ?_
  intro other o s'' hclaim
  cases hclaim with
  | inComment k hk | stripComment k hk | closeComment k hk => simp [h.comment_eq_none] at hk
  | openComment hk star slash before hrecent =>
    have hbody := h.body_eq_nil
    simp [Window.body, hrecent] at hbody
  | closeAtRule hk o ho | inWhitespace hk o ho | closeWhitespace hk o ho
  | closeProperty hk _ o ho => simp [h.current_eq_none] at ho
  | selector hk _ _ _ _ start stop hsome => simp [hspan] at hsome
  | openAtRule hk _ hc | openProperty hk _ _ hc | rejectBlank hk _ _ hc
  | rejectContent hk _ _ hc => simp at hc
  | openWhitespace hk _ hc => exact absurd hc (by decide)
  | _ => rfl

end Step

/-! ## A run -/

namespace State

/-- The number of the token that the character scanned last has finished; of two tokens, that of the
later one. -/
def finishedId? (s : State) : Option TokenId :=
  s.completed.bind fun k => if k.position = s.position then some k.id else none

theorem preserves_openers (P : Option Token → Position → Prop) (cs : List Char) {c : Char}
    (hc : c ≠ '{') :
    Preserves c (fun items s => s.Offered cs c ∧ Openers P items s)
      (fun items s => s.OfferedAgain cs c ∧ Openers P items s)
      (fun items s => Openers P items s) where
  last h := h.1.last
  first_of_again h := ⟨h.1.toOffered, h.2⟩
  done_of_again h := h.2
  done_of_skip h _ := h.2
  done_of_claim h hclaim ht := by
    rcases hclaim.blocks_cases ht with hblocks | ⟨hbrace, -⟩
    · exact h.2.congr (by simp) hblocks
    · exact absurd hbrace hc
  done_of_token h hclaim ht _ := hclaim.openers_of_token h.1 h.2 ht hc
  again_of_token h hclaim ht _ :=
    ⟨hclaim.offeredAgain h.1 ht, (hclaim.openers_of_token h.1 h.2 ht hc).congr rfl rfl⟩

end State

/-- The block whose brace stands at `p` comes after the token that the brace has finished, or else
not after an at-rule with a block. -/
def Heads (cs : List Char) (previous : Option Token) (p : Position) : Prop :=
  ∃ before after, cs = before ++ '{' :: after ∧ Position.start.advanceAll before = p ∧
    ((State.after {} (before ++ ['{'])).finishedId? = none ∧
        (∀ t, previous = some t → t.isBlockRule = false) ∨
      ∃ t, previous = some t ∧ (State.after {} (before ++ ['{'])).finishedId? = some t.id)

theorem Heads.append {cs : List Char} {previous : Option Token} {p : Position}
    (h : Heads cs previous p) (ds : List Char) : Heads (cs ++ ds) previous p := by
  obtain ⟨before, after, rfl, hrest⟩ := h
  exact ⟨before, after ++ ds, by simp, hrest⟩

/-! ## Opening braces -/

/-- The state after the brace that has finished the token is offered again and opens a block. -/
def State.reopened (s : State) (t : Token) : State :=
  let again := (s.complete t).2.pushAgain '{'
  (again.openBlock again.position again.headerStart).clearWindow

@[simp] theorem State.finishedId?_reopened (s : State) (t : Token) :
    (s.reopened t).finishedId? = some t.id := by
  simp [reopened, finishedId?, openBlock, clearWindow, pushAgain, completed_complete]

/-- What an opening brace brings about: the items it adds and the state it leaves. -/
inductive Opening (s : State) : List Item → State → Prop
  /-- The brace opens no block and finishes no token. -/
  | passes (last : State) (hblocks : last.blocks = s.blocks) (hnone : last.finishedId? = none) :
      Opening s [] last
  /-- The rule for blocks is the first that claims the brace. -/
  | atOnce (outcome : Outcome) (last : State)
      (hfirst : State.firstClaim Rule.order.tail s = (some (.block, outcome), last))
      (hclaim : Claim s '{' .block outcome last) (ht : outcome.token? = none) :
      Opening s outcome.found last
  /-- The brace finishes a token and then opens a block. -/
  | afterToken (rule : Rule) (t : Token) (s' : State) (hclaim : Claim s '{' rule (.token t) s') :
      Opening s (s'.complete t).1 (s'.reopened t)

section Brace

variable {items : List Item} {cs : List Char}

/-- A brace that finishes no token is claimed by the rule for blocks or belongs to a comment. -/
theorem Claim.brace_cases {s s' : State} {rule : Rule} {outcome : Outcome}
    (h : Claim s '{' rule outcome s') (ht : outcome.token? = none) :
    rule = .block ∨ outcome.found = [] ∧ s'.blocks = s.blocks := by
  cases h with
  | openBlock | openUnclaimed | strayBrace | strayContent => exact Or.inl rfl
  | inComment | stripComment | openComment => exact Or.inr ⟨rfl, rfl⟩
  | openAtRule _ _ hc | openProperty _ _ _ hc | rejectBlank _ _ _ hc
  | rejectContent _ _ _ hc => simp at hc
  | openWhitespace _ _ hc | inWhitespace _ _ _ _ hc => exact absurd hc (by decide)
  | _ => simp [Outcome.token?] at ht

/-- A brace closes no block, so the token it finishes comes without a finding. -/
theorem Claim.eq_token_of_brace {s s' : State} {rule : Rule} {outcome : Outcome} {t : Token}
    (h : Claim s '{' rule outcome s') (ht : outcome.token? = some t) : outcome = .token t := by
  cases h with
  | closeBlockAfter _ _ hc => simp at hc
  | closeComment | closeAtRule | selector | closeProperty | closeBlock | closeWhitespace =>
    rw [← Option.some.inj ht]
  | _ => simp [Outcome.token?] at ht

/-- With no token finished since, the last one was finished by an earlier character. -/
theorem finishedId?_eq_none {s : State} (hcompleted : s.completed = (State.after {} cs).completed)
    (hposition : s.position = (State.after {} cs).next) : s.finishedId? = none := by
  rw [State.finishedId?, hcompleted, hposition]
  cases hk : (State.after {} cs).completed with
  | none => rfl
  | some k => simp [ne_of_lt (State.completed_lt_next cs k hk)]

/-- Scanning an opening brace is one of the ways of opening. -/
theorem opening (cs : List Char) :
    Opening ((State.after {} cs).arrive '{') ((State.after {} cs).scan '{').1.items
      ((State.after {} cs).scan '{').2 := by
  have hs := (State.settled_after cs).arrive '{'
  rw [(State.scan_eq _ _).1, (State.scan_eq _ _).2]
  rcases firstClaim_cases Rule.order.tail hs.last State.lineEnding_not_mem_tail with
    ⟨hnone, -⟩ | ⟨rule, outcome, s', -, hfirst, hclaim⟩
  · simp only [State.scanPasses, hnone]
    exact .passes _ rfl (finishedId?_eq_none rfl rfl)
  · cases ht : outcome.token? with
    | none =>
      simp only [State.scanPasses, hfirst, ht]
      rcases hclaim.brace_cases ht with rfl | ⟨hfound, hblocks⟩
      · exact .atOnce outcome s' hfirst hclaim ht
      · rw [← Outcome.found, hfound]
        exact .passes s' hblocks (finishedId?_eq_none hclaim.completed_eq hclaim.position_eq)
    | some t =>
      -- the brace is offered again, with the token it has finished as the last one
      obtain rfl := hclaim.eq_token_of_brace ht
      obtain ⟨hcontinues, hmem⟩ := hclaim.continues_brace hs ht
      obtain ⟨hitems, hstate⟩ := State.scanPasses_of_handoff 6 hfirst ht hcontinues
      have hopen := (hclaim.offeredAgain hs ht).firstClaim_brace
        (State.lineEnding_not_mem_rescanRules rule) hmem
      rw [hitems, hstate]
      simp only [State.scanPasses, hopen, Outcome.found, Outcome.token?, Outcome.finding?,
        Option.toList_none, List.map_nil, List.append_nil, List.nil_append]
      exact .afterToken rule t s' hclaim

/-- A brace that has opened a block after all that was there before it. -/
theorem Openers.opened {items' : List Item} {s : State} {blocks : List OpenBlock}
    (hstate : State.after {} (cs ++ ['{']) = s)
    (hblocks : ∃ id header, s.blocks = ⟨id, (State.after {} cs).next, header, []⟩ :: blocks)
    (hheaders : Headers (Heads (cs ++ ['{'])) items' blocks)
    (hlast : s.finishedId? = none ∧ (∀ t, lastOf items' blocks = some t → t.isBlockRule = false) ∨
      ∃ t, lastOf items' blocks = some t ∧ s.finishedId? = some t.id) :
    Openers (Heads (cs ++ ['{'])) items' s := by
  obtain ⟨id, header, hblocks⟩ := hblocks
  refine ⟨?_, by simp [hblocks, lastOf, OpenBlock.children]⟩
  rw [hblocks]
  refine ⟨hheaders, ⟨cs, [], rfl, (State.settled_after cs).next.symm, ?_⟩, trivial⟩
  rw [hstate]
  exact hlast

/-- An opening brace opens a block after the token it has finished or after what was there. -/
theorem Openers.scan_brace (h : Openers (Heads (cs ++ ['{'])) items (State.after {} cs)) :
    Openers (Heads (cs ++ ['{'])) (items ++ ((State.after {} cs).scan '{').1.items)
      ((State.after {} cs).scan '{').2 := by
  have hs := (State.settled_after cs).arrive '{'
  have hafter := State.after_concat {} cs '{'
  have hopening := opening cs
  generalize ((State.after {} cs).scan '{').1.items = newItems at hopening ⊢
  generalize ((State.after {} cs).scan '{').2 = last at hafter hopening ⊢
  cases hopening with
  | passes _ hblocks =>
    rw [List.append_nil]
    exact h.congr rfl hblocks
  | atOnce outcome _ _ hclaim ht =>
    have htokens : tokensOf (items ++ outcome.found) = tokensOf items := by simp
    rcases hclaim.blocks_cases ht with hblocks | ⟨-, hblocks⟩
    · exact h.congr htokens hblocks
    · refine Openers.opened hafter hblocks ((headers_congr htokens).2 h.headers)
        (Or.inl ⟨finishedId?_eq_none hclaim.completed_eq hclaim.position_eq, ?_⟩)
      intro t hlast
      exact h.last t ((lastOf_congr htokens).symm.trans hlast)
  | afterToken rule t s' hclaim =>
    obtain ⟨hheaders, p, hp, hlast⟩ := hclaim.headers_of_token hs h.headers rfl
    rw [show items ++ Outcome.found (.token t) = items from List.append_nil _] at hheaders hlast
    have hposition : ((s'.complete t).2.pushAgain '{').position = (State.after {} cs).next :=
      (State.position_complete _ _).trans hclaim.position_eq
    refine Openers.opened hafter
      ⟨_, _, congrArg (fun p => (⟨_, p, _, []⟩ : OpenBlock) :: _) hposition⟩ hheaders
      (Or.inr ⟨_, hlast, ?_⟩)
    simp [Token.id, hp]

end Brace

/-- The blocks of a run come after what their braces have finished. -/
theorem openers_after (cs : List Char) :
    Openers (Heads cs) (State.itemsOf {} cs) (State.after {} cs) := by
  induction cs using List.reverseRecOn with
  | nil => exact ⟨trivial, by simp [lastOf]⟩
  | append_singleton cs c ih =>
    have hgrown : Openers (Heads (cs ++ [c])) (State.itemsOf {} cs) (State.after {} cs) :=
      ⟨ih.headers.mono fun previous p h => h.append [c], ih.last⟩
    rw [State.itemsOf_concat, State.after_concat]
    by_cases hc : c = '{'
    · subst hc
      exact hgrown.scan_brace
    · exact (State.preserves_openers _ cs hc).scan _
        ⟨(State.settled_after cs).arrive c, hgrown.congr rfl rfl⟩

/-! ## The end of the source -/

section End

variable {P : Option Token → Position → Prop} {items : List Item} {s : State}

/-- A token without children finished at the end of the source. -/
theorem Headers.acceptLeaf (h : Headers P items s.blocks) (found : List Item)
    (hfound : tokensOf found = []) (id : TokenId) (content : Leaf) (start stop : Position) :
    Headers P (items ++ (found ++ (s.accept (.ofLeaf id content start stop)).1))
      (s.accept (.ofLeaf id content start stop)).2.blocks := by
  have htokens : tokensOf (items ++ found) = tokensOf items := by simp [hfound]
  rw [← List.append_assoc]
  have hheaders := (headers_congr htokens).2 h
  exact (Headers.accept (t := .ofLeaf id content start stop) hheaders trivial).1

theorem Headers.finishComment (h : Headers P items s.blocks) :
    Headers P (items ++ s.finishComment.1) s.finishComment.2.blocks := by
  unfold State.finishComment
  split
  · simpa using h
  · next k hk =>
    dsimp only
    split
    · exact (headers_congr (by simp [State.unclosed])).2 h
    · exact Headers.acceptLeaf (s := { s with comment := none }) h [_] rfl _ _ _ _

theorem Headers.finishCurrent (h : Headers P items s.blocks) :
    Headers P (items ++ s.finishCurrent.1) s.finishCurrent.2.blocks := by
  unfold State.finishCurrent State.closeCurrent?
  cases ho : s.current with
  | none => simpa using h
  | some o =>
    refine Headers.acceptLeaf (s := { s with current := none }) h _ ?_ _ _ _ _
    split <;> rfl

theorem Headers.finishBlock {stop : Position} {last : Option TokenId} {b : OpenBlock}
    {around : List OpenBlock} (h : Headers P items (b :: around)) :
    Token.HeadedAll P none (tokensOf (items ++ (State.finishBlock stop last b around).items)) := by
  induction around generalizing b items with
  | nil =>
    obtain ⟨houter, hclosed⟩ := h.pop stop
    have htokens : tokensOf (items ++ (State.finishBlock stop last b []).items) =
        tokensOf items ++ [(b.close stop).linkedAfter last] := by simp [State.finishBlock]
    rw [htokens, Token.headedAll_concat, Token.linkedAfter, Token.headed_withPlace (by rfl)]
    exact ⟨houter, hclosed⟩
  | cons outer rest ih =>
    obtain ⟨houter, hclosed⟩ := h.pop stop
    have hadded : Headers P (items ++ []) (outer.add (b.close stop) :: rest) :=
      (Headers.accept (s := { blocks := outer :: rest }) houter hclosed).1
    rw [List.append_nil] at hadded
    simpa [State.finishBlock] using ih hadded

/-- The blocks of a finished run have the property. -/
theorem Headers.finish (h : Headers P items s.blocks) :
    Token.HeadedAll P none (tokensOf (items ++ s.finish.items)) := by
  have hclosed := h.finishComment.finishCurrent
  have htokens : tokensOf (items ++ s.finish.items) =
      tokensOf (items ++ s.finishComment.1 ++ s.finishComment.2.finishCurrent.1 ++
        s.finishComment.2.finishCurrent.2.finishBlocks.items) := by
    simp [State.finish]
  rw [htokens, State.finishBlocks]
  cases hblocks : s.finishComment.2.finishCurrent.2.blocks with
  | nil =>
    rw [hblocks] at hclosed
    simpa [Headers] using hclosed
  | cons b around =>
    rw [hblocks] at hclosed
    exact hclosed.finishBlock

end End

end Scan

end Stylesheet
