import Stylesheet.Proofs.Payload
import Stylesheet.Proofs.Scan.Coherence

set_option autoImplicit false

/-! # Following the scanner

Where the invariants of the scanner say what holds whatever it reads, this module says what it does
with a text that is known. `Reads P cs Q` is a triple: scanning `cs` takes every run described by
`P` to one described by `Q`. A run is described by `Reading`: which tokens are finished at each
depth, what kind of token is open, and which text is pending. The steps say for one character at a
time which rule claims it and how the description changes. -/

namespace Stylesheet.Scan

/-! ## Triples -/

/-- Scanning `cs` takes a run described by `P` to one described by `Q`. -/
def Reads (P : List Item → State → Prop) (cs : List Char) (Q : List Item → State → Prop) : Prop :=
  ∀ items s, P items s → Q (items ++ s.itemsOf cs) (s.after cs)

/-- Offering the character `c` to the rules, `passes` times at most, ends in `Q`. -/
def Passing (c : Char) (passes : Nat) (rules : List Rule) (Q : List Item → State → Prop)
    (items : List Item) (s : State) : Prop :=
  Q (items ++ (State.scanPasses c passes rules s).1.items) (State.scanPasses c passes rules s).2

section Triples

variable {P Q R : List Item → State → Prop} {cs ds : List Char} {c : Char}

theorem Reads.nil (h : ∀ items s, P items s → Q items s) : Reads P [] Q := by
  intro items s hs
  simpa using h items s hs

theorem Reads.append (h : Reads P cs Q) (h' : Reads Q ds R) : Reads P (cs ++ ds) R := by
  intro items s hs
  have hR := h' _ _ (h items s hs)
  rwa [List.append_assoc, ← State.itemsOf_append, ← State.after_append] at hR

theorem Reads.weaken (h : Reads P cs Q) {P' Q' : List Item → State → Prop}
    (hP : ∀ items s, P' items s → P items s) (hQ : ∀ items s, Q items s → Q' items s) :
    Reads P' cs Q' :=
  fun items s hs => hQ _ _ (h items s (hP items s hs))

theorem Passing.of_skip {passes : Nat} {rules : List Rule} {items : List Item} {s : State}
    (hfirst : State.firstClaim rules s = (none, s)) (h : Q items s) :
    Passing c (passes + 1) rules Q items s := by
  simpa [Passing, State.scanPasses, hfirst] using h

section Claimed

variable {passes : Nat} {rules : List Rule} {items : List Item} {s s' : State} {rule : Rule}
  {outcome : Outcome} (hfirst : State.firstClaim rules s = (some (rule, outcome), s'))

include hfirst

theorem Passing.of_claim (ht : outcome.token? = none) (h : Q (items ++ outcome.found) s') :
    Passing c (passes + 1) rules Q items s := by
  simpa [Passing, State.scanPasses, hfirst, ht, Outcome.found] using h

theorem Passing.of_token {t : Token} (ht : outcome.token? = some t)
    (hcontinues : State.continues t.type rule c = false)
    (h : Q (items ++ outcome.found ++ (s'.complete t).1) (s'.complete t).2) :
    Passing c (passes + 1) rules Q items s := by
  simpa [Passing, State.scanPasses, hfirst, ht, hcontinues, Outcome.found] using h

theorem Passing.of_handoff {t : Token} (ht : outcome.token? = some t)
    (hcontinues : State.continues t.type rule c = true)
    (h : Passing c passes (State.rescanRules rule) Q
      (items ++ outcome.found ++ (s'.complete t).1) ((s'.complete t).2.pushAgain c)) :
    Passing c (passes + 1) rules Q items s := by
  simpa [Passing, State.scanPasses, hfirst, ht, hcontinues, Outcome.found, List.append_assoc]
    using h

end Claimed

/-- A character is scanned by offering it to all rules but that for line endings. -/
theorem Reads.singleton
    (h : ∀ items s, P items s → Passing c 7 Rule.order.tail Q items (s.arrive c)) :
    Reads P [c] Q := by
  intro items s hs
  have hpass := h items s hs
  simpa [Passing, s.scan_eq c] using hpass

end Triples

/-- The first rule in the list that can claim the character does so. -/
theorem firstClaim_eq {s s' : State} {c : Char} {rules : List Rule} {rule : Rule}
    {outcome : Outcome} (hlast : s.window.last? = some c) (hrules : Rule.lineEnding ∉ rules)
    (hmem : rule ∈ rules) (hscan : rule.scan s = (outcome, s')) (hne : outcome ≠ .skip)
    (hother : ∀ {other o s''}, Claim s c other o s'' → other ∉ rules.takeWhile (· ≠ rule)) :
    State.firstClaim rules s = (some (rule, outcome), s') := by
  induction rules with
  | nil => simp at hmem
  | cons first rules ih =>
    by_cases hfirst : first = rule
    · subst hfirst
      exact firstClaim_of_scan hscan hne
    · simp only [List.mem_cons, not_or] at hrules
      have hskip : first.scan s = (.skip, s) := by
        rcases Rule.scan_cases hlast (Ne.symm hrules.1) with hskip | hclaim
        · exact hskip
        · exact absurd (by simp [hfirst]) (hother hclaim)
      rw [firstClaim_of_skip hskip]
      refine ih hrules.2 (List.mem_of_ne_of_mem (Ne.symm hfirst) hmem) ?_
      intro other o s'' hclaim hin
      refine hother hclaim ?_
      rw [List.takeWhile_cons, if_pos (by simpa using hfirst)]
      exact List.mem_cons_of_mem _ hin

/-- A rule that alone can claim the character does so. -/
theorem firstClaim_eq_of_unique {s s' : State} {c : Char} {rules : List Rule} {rule : Rule}
    {outcome : Outcome} (hlast : s.window.last? = some c) (hrules : Rule.lineEnding ∉ rules)
    (hmem : rule ∈ rules) (hscan : rule.scan s = (outcome, s')) (hne : outcome ≠ .skip)
    (hunique : ∀ {other o s''}, Claim s c other o s'' → other = rule) :
    State.firstClaim rules s = (some (rule, outcome), s') := by
  refine firstClaim_eq hlast hrules hmem hscan hne ?_
  intro other o s'' hclaim hin
  have hother := List.mem_takeWhile_imp hin
  simp [hunique hclaim] at hother

/-- A comment opens at a star only. -/
theorem not_opens_comment {text : List Char} {c : Char} (hc : c ≠ '*') :
    ¬ ['/', '*'] <:+ text ++ [c] := by
  rintro ⟨front, hfront⟩
  have hlast := congrArg List.getLast? hfront
  simp only [List.getLast?_append, List.getLast?_cons_cons, List.getLast?_singleton,
    Option.some_or, Option.some.injEq] at hlast
  exact hc hlast.symm

/-! ## Descriptions of a run -/

/-- The shapes of the finished tokens at each depth, innermost first. -/
def levels (items : List Item) (s : State) : List (List Shape) :=
  s.blocks.map (fun b => b.children.map Token.shape) ++ [(tokensOf items).map Token.shape]

/-- The innermost sequence with more tokens at its end. -/
def extend (shapes : List Shape) : List (List Shape) → List (List Shape)
  | [] => []
  | level :: outer => (level ++ shapes) :: outer

theorem shapeAll_eq_map (ts : List Token) : Token.shapeAll ts = ts.map Token.shape := by
  induction ts with
  | nil => rfl
  | cons t ts ih => rw [Token.shapeAll, ih, List.map_cons]

theorem shape_withPlace (p : Placement) (t : Token) : (t.withPlace p).shape = t.shape := by
  cases t <;> rfl

/-- An accepted token joins the innermost sequence. -/
theorem levels_accept (items : List Item) (s : State) (t : Token) :
    levels (items ++ (s.accept t).1) (s.accept t).2 = extend [t.shape] (levels items s) := by
  unfold State.accept
  split
  · next b blocks hblocks =>
    simp [levels, hblocks, extend, Token.childOf, shape_withPlace]
  · next hblocks =>
    simp [levels, hblocks, extend, State.acceptTopLevel, Token.linkedAfter, shape_withPlace]

theorem findingsOf_accept (s : State) (t : Token) : findingsOf (s.accept t).1 = [] := by
  unfold State.accept
  split <;> rfl

/-- The run has finished the tokens `L` without findings, a token of the given kind is open, and the
given text is pending. -/
structure Reading (L : List (List Shape)) (kind : Option OpenKind) (text : List Char)
    (items : List Item) (s : State) : Prop where
  levels : Scan.levels items s = L
  quiet : findingsOf items = []
  comment : s.comment = none
  kind : s.current.map OpenToken.kind = kind
  window : ∃ p, s.window = Window.ofCells (Cell.ofText p text) ∧ s.next = p.advanceAll text

/-- The same, while the character `c` after the pending text is offered to the rules. -/
structure Offering (L : List (List Shape)) (kind : Option OpenKind) (text : List Char) (c : Char)
    (items : List Item) (s : State) : Prop extends Reading L kind (text ++ [c]) items s where
  position : s.next = s.position.advance c

theorem ofCells_concat (cells : List Cell) (cell : Cell) :
    Window.ofCells (cells ++ [cell]) = (Window.ofCells cells).push cell.char cell.position := by
  simp [Window.ofCells, List.foldl_append]

/-- Text that was read without interruption has no anchors. -/
theorem anchorsFrom_ofText (first last offset : Nat) (expected : Option Position) (p : Position)
    (cs : List Char) (h : ∀ q, expected = some q → q = p) :
    Window.anchorsFrom first last offset expected (Cell.ofText p cs) = [] := by
  induction cs generalizing offset expected p with
  | nil => rfl
  | cons c cs ih =>
    rw [Cell.ofText, Window.anchorsFrom]
    by_cases hlast : last ≤ offset
    · rw [if_pos hlast]
    · rw [if_neg hlast]
      have hrest := ih (offset + c.utf8Size) (some (p.advance c)) (p.advance c) (by simp)
      dsimp only
      rw [hrest, if_neg]
      rintro ⟨-, hsome, hne⟩
      obtain ⟨q, hq⟩ := Option.isSome_iff_exists.1 hsome
      exact hne (by rw [hq, h q hq])

theorem Reading.arrive {L : List (List Shape)} {kind : Option OpenKind} {text : List Char}
    {items : List Item} {s : State} (h : Reading L kind text items s) (c : Char) :
    Offering L kind text c items (s.arrive c) := by
  obtain ⟨p, hwindow, hnext⟩ := h.window
  refine ⟨⟨h.levels, h.quiet, h.comment, h.kind, p, ?_, ?_⟩, rfl⟩
  · simp [State.arrive, hwindow, hnext, ofCells_concat]
  · simp [State.arrive, hnext]

/-- The pending text may become a selector; in a block it may have begun like a declaration. -/
def Heading (L : List (List Shape)) (text : List Char) (items : List Item) (s : State) : Prop :=
  ∃ kind, (kind = none ∨ ∃ name, kind = some (.property name)) ∧ Reading L kind text items s

namespace Offering

variable {L : List (List Shape)} {kind : Option OpenKind} {text : List Char} {c : Char}
  {items : List Item} {s : State} (h : Offering L kind text c items s)

include h

theorem exists_push : ∃ p, s.window.cells = Cell.ofText p text ++ [⟨c, p.advanceAll text⟩] ∧
    s.window.body = Cell.ofText p text ∧ s.window.last? = some c ∧ s.window.Sound := by
  obtain ⟨p, hwindow, -⟩ := h.window
  have hsound := Window.sound_ofCells (Cell.ofText p (text ++ [c]))
  rw [← hwindow] at hsound
  rw [Cell.ofText_append, Cell.ofText_singleton, ofCells_concat] at hwindow
  refine ⟨p, ?_, ?_, ?_, hsound⟩
  · simp [hwindow]
  · simp [hwindow]
  · simp [hwindow]

theorem last : s.window.last? = some c := by
  obtain ⟨p, -, -, hlast, -⟩ := h.exists_push
  exact hlast

theorem exists_current {k : OpenKind} (hkind : kind = some k) :
    ∃ o, s.current = some o ∧ o.kind = k := by
  have hcurrent := h.kind
  rw [hkind, Option.map_eq_some_iff] at hcurrent
  exact hcurrent

theorem bodyText : s.bodyText = text := by
  obtain ⟨p, -, hbody, -⟩ := h.exists_push
  rw [State.bodyText, hbody, Cell.text_ofText]

theorem text_eq : s.window.text = text ++ [c] := by
  obtain ⟨p, hcells, -⟩ := h.exists_push
  rw [Window.text, hcells]
  simp

/-- Blank text has no span. -/
theorem span_eq_none (hblank : Text.allBlank text = true) : Cell.span? s.window.body = none := by
  obtain ⟨p, -, hbody, -⟩ := h.exists_push
  rw [hbody, Cell.span?_eq_none_iff]
  intro cell hcell
  obtain ⟨before, after, htext, -⟩ := Cell.mem_ofText_iff.1 hcell
  have hmem : cell.char ∈ text := by simp [htext]
  have := List.all_eq_true.1 hblank _ hmem
  simp [Cell.isVisible, this]

theorem exists_span (hvisible : Text.allBlank text = false) :
    ∃ start stop, Cell.span? s.window.body = some (start, stop) := by
  cases hspan : Cell.span? s.window.body with
  | some span => exact ⟨span.1, span.2, rfl⟩
  | none =>
    obtain ⟨p, -, hbody, -⟩ := h.exists_push
    have hblank : Text.allBlank (Cell.text s.window.body) = true := by
      have hall := Cell.span?_eq_none_iff.1 hspan
      simpa [Text.allBlank, Cell.isVisible] using hall
    rw [hbody, Cell.text_ofText, hvisible] at hblank
    simp at hblank

theorem isBlank_eq : s.window.isBlank = Text.allBlank (text ++ [c]) := by
  obtain ⟨p, hcells, -, -, hsound⟩ := h.exists_push
  rw [Bool.eq_iff_iff, hsound.isBlank_iff, ← h.text_eq, Window.text]
  simp [Text.allBlank]

/-- A comment opens at nothing but a star after a slash. -/
theorem opens_comment {star slash : Cell} {before : List Cell}
    (hrecent : s.window.recent = star :: slash :: before) (hstar : star.char = '*')
    (hslash : slash.char = '/') : ['/', '*'] <:+ text ++ [c] := by
  rw [← h.text_eq, Window.text, Window.cells, hrecent]
  simp [hstar, hslash]

/-- Who can claim a character, by the kind of token that is open. -/
theorem rule_eq (hstar : ¬ ['/', '*'] <:+ text ++ [c]) {rule : Rule} {outcome : Outcome}
    {s' : State} (hclaim : Claim s c rule outcome s') :
    (kind = some .atRule ∧ rule = .atRule ∧ (c = ';' ∨ c = '{')) ∨
    (kind = some .whitespace ∧ rule = .whitespace) ∨
    (∃ name, kind = some (.property name) ∧
      (rule = .property ∧ (c = ';' ∨ c = '}') ∨ c = '{' ∧ (rule = .selector ∨ rule = .block))) ∨
    (kind = none ∧ (c = '@' ∧ rule = .atRule ∨ c = '{' ∧ (rule = .selector ∨ rule = .block) ∨
      c = ':' ∧ rule = .property ∨ c = ';' ∧ rule = .property ∨ c = '}' ∧ rule = .block ∨
      Text.allBlank (text ++ [c]) = true ∧ rule = .whitespace)) := by
  have hkind := h.kind
  have hcomment := h.comment
  cases hclaim with
  | inComment k hk | stripComment k hk | closeComment k hk => simp [hcomment] at hk
  | openComment hk star slash before hrecent hs hl =>
    exact absurd (h.opens_comment hrecent hs hl) hstar
  | closeAtRule hk t hcurrent htype hc =>
    exact Or.inl ⟨by simp [← hkind, hcurrent, htype], rfl, hc⟩
  | openAtRule hk hcurrent hc => simp [← hkind, hcurrent, hc]
  | selector hk hc hcurrent =>
    rcases hcurrent with hcurrent | ⟨t, name, hcurrent, htype⟩
    · simp [← hkind, hcurrent, hc]
    · simp [← hkind, hcurrent, hc, htype]
  | openProperty hk hblocks hcurrent hc => simp [← hkind, hcurrent, hc]
  | closeProperty hk hblocks t hcurrent name htype hc =>
    refine Or.inr (Or.inr (Or.inl ⟨name, by simp [← hkind, hcurrent, htype], Or.inl ⟨rfl, hc⟩⟩))
  | rejectBlank hk hblocks hcurrent hc | rejectContent hk hblocks hcurrent hc =>
    simp [← hkind, hcurrent, hc]
  | openBlock hk hc hcurrent | openUnclaimed hk hc hcurrent =>
    rcases hcurrent with hcurrent | ⟨t, name, hcurrent, htype, -⟩
    · simp [← hkind, hcurrent, hc]
    · simp [← hkind, hcurrent, hc, htype]
  | closeBlock hk hcurrent hc | closeBlockAfter hk hcurrent hc | strayBrace hk hcurrent hc
  | strayContent hk hcurrent hc => simp [← hkind, hcurrent, hc]
  | openWhitespace hk hcurrent hc hblank =>
    rw [h.isBlank_eq] at hblank
    simp only [← hkind, hcurrent, hblank]
    simp
  | inWhitespace hk t hcurrent htype | closeWhitespace hk t hcurrent htype =>
    exact Or.inr (Or.inl ⟨by simp [← hkind, hcurrent, htype], rfl⟩)

/-- A finished token leaves nothing open and nothing pending. -/
theorem complete (s' : State) (t : Token) {L' : List (List Shape)} {found : List Item}
    {shape : Shape} (hshape : t.shape = shape) (hfound : found = [])
    (hlevels : Scan.levels items s' = L') (hcurrent : s'.current = none)
    (hcomment : s'.comment = none) :
    Reading (extend [shape] L') none [] (items ++ found ++ (s'.complete t).1)
      (s'.complete t).2 := by
  subst hfound hshape
  have haccept := levels_accept items (s'.recordCompleted t) t
  refine ⟨?_, ?_, by simp [hcomment], by simp [hcurrent], (s'.complete t).2.next, rfl, rfl⟩
  · rw [← hlevels, List.append_nil]
    exact haccept
  · have hquiet := findingsOf_accept (s'.recordCompleted t) t
    simp [h.quiet, State.complete, hquiet]

/-- After a finished token the character is offered again with nothing before it. -/
theorem again (s' : State) (t : Token) {L' : List (List Shape)} {found : List Item}
    {shape : Shape} (hshape : t.shape = shape) (hfound : found = [])
    (hlevels : Scan.levels items s' = L') (hcurrent : s'.current = none)
    (hcomment : s'.comment = none) (hnext : s'.next = s.next)
    (hposition : s'.position = s.position) :
    Offering (extend [shape] L') none [] c (items ++ found ++ (s'.complete t).1)
      ((s'.complete t).2.pushAgain c) := by
  have hdone := h.complete s' t hshape hfound hlevels hcurrent hcomment
  refine ⟨⟨hdone.levels, hdone.quiet, hdone.comment, hdone.kind, s.position, ?_, ?_⟩, ?_⟩
  · simp [State.pushAgain, hposition, Window.ofCells]
  · simp [State.pushAgain, hnext, h.position]
  · simp [State.pushAgain, hnext, hposition, h.position]

/-- A claim that finishes nothing may open a token. -/
theorem consumed {s' : State} {kind' : Option OpenKind} (hblocks : s'.blocks = s.blocks)
    (hcomment : s'.comment = s.comment) (hkind : s'.current.map OpenToken.kind = kind')
    (hwindow : s'.window = s.window) (hnext : s'.next = s.next) :
    Reading L kind' (text ++ [c]) (items ++ Outcome.consumed.found) s' := by
  refine ⟨?_, ?_, hcomment.trans h.comment, hkind, ?_⟩
  · rw [← h.levels]
    simp [Scan.levels, hblocks, Outcome.found, Outcome.finding?]
  · simpa [Outcome.found, Outcome.finding?] using h.quiet
  · rw [hwindow, hnext]
    exact h.window

/-! ## Steps -/

section Steps

variable {passes : Nat} {rules : List Rule}

/-- A character that no rule claims stays pending. -/
theorem skip (hrules : Rule.lineEnding ∉ rules)
    (hno : ∀ rule outcome s', ¬ Claim s c rule outcome s') :
    Passing c (passes + 1) rules (Reading L kind (text ++ [c])) items s := by
  rcases firstClaim_cases rules h.last hrules with ⟨hnone, -⟩ | ⟨rule, outcome, s', -, -, hclaim⟩
  · exact .of_skip hnone h.toReading
  · exact absurd hclaim (hno rule outcome s')

/-- Inside a declaration or an at-rule every character but those that end it stays pending. -/
theorem skip_open (hrules : Rule.lineEnding ∉ rules) (hstar : ¬ ['/', '*'] <:+ text ++ [c])
    (hkind : kind = some .atRule ∨ ∃ name, kind = some (.property name))
    (hc : c ≠ ';' ∧ c ≠ '{' ∧ c ≠ '}') :
    Passing c (passes + 1) rules (Reading L kind (text ++ [c])) items s := by
  refine h.skip hrules ?_
  intro rule outcome s' hclaim
  have hrule := h.rule_eq hstar hclaim
  rcases hkind with rfl | ⟨name, rfl⟩
  · simp [hc] at hrule
  · simp [hc] at hrule

/-- With nothing open, a character of a name stays pending. -/
theorem skip_name (hrules : Rule.lineEnding ∉ rules) (hkind : kind = none)
    (hc : Text.isNameChar c = true) :
    Passing c (passes + 1) rules (Reading L kind (text ++ [c])) items s := by
  refine h.skip hrules ?_
  intro rule outcome s' hclaim
  have hstar : ¬ ['/', '*'] <:+ text ++ [c] :=
    not_opens_comment (Text.ne_of_class hc (by decide))
  have hblank : Text.allBlank (text ++ [c]) = false :=
    Text.allBlank_concat text (Text.isBlank_of_isNameChar hc)
  have hrule := h.rule_eq hstar hclaim
  have hne (d : Char) (hd : Text.isNameChar d = false) : c ≠ d := Text.ne_of_class hc hd
  simp [hkind, hblank, hne '@' (by decide), hne '{' (by decide), hne ':' (by decide),
    hne ';' (by decide), hne '}' (by decide)] at hrule

theorem blocks_ne_nil {inner outer : List Shape} {rest : List (List Shape)}
    (hL : L = inner :: outer :: rest) : s.blocks ≠ [] := by
  intro hnil
  have hlevels := h.levels
  simp [hL, Scan.levels, hnil] at hlevels

/-- A colon after a name in a block opens a declaration. -/
theorem openProperty {name : String} (hrules : Rule.lineEnding ∉ rules)
    (hmem : Rule.property ∈ rules) (hkind : kind = none) (hc : c = ':')
    (htext : text = name.toList) (hname : Text.IsName name) {inner outer : List Shape}
    {rest : List (List Shape)} (hL : L = inner :: outer :: rest) :
    Passing c (passes + 1) rules (Reading L (some (.property name)) (text ++ [c])) items s := by
  have hcurrent : s.current = none := by simpa [hkind] using h.kind
  have hread : Payload.declarationName? s.window.text = some name := by
    rw [h.text_eq, htext, hc]
    exact Printing.declarationName?_eq hname
  obtain ⟨start, hscan⟩ : ∃ start,
      Rule.property.scan s = (.consumed, s.openToken (.property name) start) := by
    simp [Rule.scan, h.last, h.comment, State.scanProperty, h.blocks_ne_nil hL, hcurrent, hc,
      State.beginProperty, hread]
  refine .of_claim (firstClaim_eq_of_unique h.last hrules hmem hscan (by simp) ?_) rfl ?_
  · intro other o s'' hclaim
    have hrule := h.rule_eq (not_opens_comment (by simp [hc])) hclaim
    have hblank : Text.allBlank (text ++ [':']) = false := Text.allBlank_concat text (by decide)
    simpa [hkind, hc, hblank] using hrule
  · exact h.consumed rfl rfl rfl rfl rfl

/-- An `@` with nothing before it opens an at-rule. -/
theorem openAtRule (hrules : Rule.lineEnding ∉ rules) (hmem : Rule.atRule ∈ rules)
    (hkind : kind = none) (hc : c = '@') (htext : text = []) :
    Passing c (passes + 1) rules (Reading L (some .atRule) (text ++ [c])) items s := by
  have hcurrent : s.current = none := by simpa [hkind] using h.kind
  have hsign : Payload.isAtSign s.window.text = true := by
    rw [h.text_eq, htext, hc]
    decide
  have hscan : Rule.atRule.scan s = (.consumed, s.openToken .atRule s.position) := by
    simp [Rule.scan, h.last, h.comment, State.scanAtRule, hcurrent, hc, hsign]
  refine .of_claim (firstClaim_eq_of_unique h.last hrules hmem hscan (by simp) ?_) rfl ?_
  · intro other o s'' hclaim
    have hrule := h.rule_eq (not_opens_comment (by simp [hc])) hclaim
    have hblank : Text.allBlank (text ++ ['@']) = false := Text.allBlank_concat text (by decide)
    simpa [hkind, hc, hblank] using hrule
  · exact h.consumed rfl rfl rfl rfl rfl

/-- A line feed with nothing before it opens indentation. -/
theorem openWhitespace (hrules : Rule.lineEnding ∉ rules) (hmem : Rule.whitespace ∈ rules)
    (hkind : kind = none) (hc : c = '\n') (htext : text = []) :
    Passing c (passes + 1) rules (Reading L (some .whitespace) (text ++ [c])) items s := by
  have hcurrent : s.current = none := by simpa [hkind] using h.kind
  obtain ⟨p, hwindow, -⟩ := h.window
  rw [htext, hc, List.nil_append, Cell.ofText_singleton] at hwindow
  have hself : s.window.dropBefore 0 = s.window := by
    rw [hwindow]
    exact (Window.sound_ofCells _).dropBefore_zero
  have hbreak : s.window.lineBreak = some 0 := by
    rw [hwindow]
    rfl
  have hblank : s.window.isBlank = true := by
    rw [h.isBlank_eq, htext, hc]
    decide
  obtain ⟨start, hscan⟩ : ∃ start,
      Rule.whitespace.scan s = (.consumed, s.openToken .whitespace start) := by
    have hline : Text.isBlank '\n' = true := by decide
    refine ⟨s.window.start?.getD s.position, ?_⟩
    simp [Rule.scan, h.last, h.comment, State.scanWhitespace, hcurrent, hc, State.beginWhitespace,
      hline, hblank, hbreak, hself, State.openToken]
  refine .of_claim (firstClaim_eq_of_unique h.last hrules hmem hscan (by simp) ?_) rfl ?_
  · intro other o s'' hclaim
    have hrule := h.rule_eq (not_opens_comment (by simp [hc])) hclaim
    have hboth : Text.allBlank (text ++ ['\n']) = true ∧ other = .whitespace := by
      simpa [hkind, hc] using hrule
    exact hboth.2
  · exact h.consumed rfl rfl rfl rfl rfl

/-- Indentation goes on over blanks. -/
theorem inWhitespace (hrules : Rule.lineEnding ∉ rules) (hmem : Rule.whitespace ∈ rules)
    (hkind : kind = some .whitespace) (hc : c = ' ') :
    Passing c (passes + 1) rules (Reading L (some .whitespace) (text ++ [c])) items s := by
  obtain ⟨o, hcurrent, ho⟩ := h.exists_current hkind
  have hscan : Rule.whitespace.scan s = (.consumed, s) := by
    have hspace : Text.isBlank ' ' = true := by decide
    simp [Rule.scan, h.last, h.comment, State.scanWhitespace, hcurrent, ho, hc, hspace]
  refine .of_claim (firstClaim_eq_of_unique h.last hrules hmem hscan (by simp) ?_) rfl ?_
  · intro other o s'' hclaim
    have hrule := h.rule_eq (not_opens_comment (by simp [hc])) hclaim
    simpa [hkind] using hrule
  · exact h.consumed rfl rfl (by simp [hcurrent, ho]) rfl rfl

/-- A visible character ends indentation and is offered again. -/
theorem closeWhitespace {Q : List Item → State → Prop} (hrules : Rule.lineEnding ∉ rules)
    (hmem : Rule.whitespace ∈ rules) (hkind : kind = some .whitespace)
    (hblank : Text.allBlank text = true) (hc : Text.isBlank c = false)
    (hagain : ∀ items s,
      Offering (extend [.leaf (.whitespace (String.ofList text))] L) none [] c items s →
      Passing c passes (State.rescanRules .whitespace) Q items s) :
    Passing c (passes + 1) rules Q items s := by
  obtain ⟨o, hcurrent, ho⟩ := h.exists_current hkind
  have hscan : Rule.whitespace.scan s =
      (.token (o.close (.whitespace (String.ofList text)) s.position),
        { s with current := none }) := by
    simp [Rule.scan, h.last, h.comment, State.scanWhitespace, hcurrent, ho, hc, h.bodyText]
  have hstar : ¬ ['/', '*'] <:+ text ++ [c] := by
    rintro ⟨front, hfront⟩
    have hslash : text = front ++ ['/'] := by
      have heq : front ++ ['/'] ++ ['*'] = text ++ [c] := by simpa using hfront
      exact (List.append_inj_left' heq rfl).symm
    rw [hslash, Text.allBlank_concat front (by decide)] at hblank
    simp at hblank
  refine .of_handoff (firstClaim_eq_of_unique h.last hrules hmem hscan (by simp) ?_) rfl
    (by simp [OpenToken.close, Leaf.type]) ?_
  · intro other o s'' hclaim
    have hrule := h.rule_eq hstar hclaim
    simpa [hkind] using hrule
  · exact hagain _ _ (h.again { s with current := none } _ rfl rfl h.levels rfl h.comment rfl rfl)

/-- A semicolon ends a declaration. -/
theorem closeProperty {name value : String} (hrules : Rule.lineEnding ∉ rules)
    (hmem : Rule.property ∈ rules) (hkind : kind = some (.property name)) (hc : c = ';')
    (htext : text = name.toList ++ [':', ' '] ++ value.toList) (hname : Text.IsName name)
    (hvalue : Text.IsPlainValue value) {inner outer : List Shape} {rest : List (List Shape)}
    (hL : L = inner :: outer :: rest) :
    Passing c (passes + 1) rules
      (Reading (extend [.leaf (.property name (some value))] L) none []) items s := by
  obtain ⟨o, hcurrent, ho⟩ := h.exists_current hkind
  have hstring : Text.insideString s.bodyText = false := by
    rw [h.bodyText, htext]
    exact Text.insideString_of_isQuote fun d hd => Printing.isQuote_declaration hname hvalue hd
  have hparens : Text.openParens s.bodyText = 0 := by
    rw [h.bodyText, htext]
    exact Printing.openParens_declaration hname hvalue
  have hread : Payload.declarationValue? s.bodyText = some value := by
    rw [h.bodyText, htext]
    exact Printing.declarationValue?_eq hname hvalue
  have hscan : Rule.property.scan s =
      (.token (o.close (.property name (some value)) s.next), { s with current := none }) := by
    simp [Rule.scan, h.last, h.comment, State.scanProperty, h.blocks_ne_nil hL, hcurrent, ho,
      State.closeProperty, hc, hstring, hparens, hread]
  refine .of_token (firstClaim_eq_of_unique h.last hrules hmem hscan (by simp) ?_) rfl
    (by simp [OpenToken.close, Leaf.type, hc]) ?_
  · intro other o s'' hclaim
    have hrule := h.rule_eq (not_opens_comment (by simp [hc])) hclaim
    simpa [hkind, hc] using hrule
  · exact h.complete { s with current := none } _ rfl rfl h.levels rfl h.comment

/-- What an at-rule says once it ends at a semicolon or brace. -/
theorem scan_closeAtRule {name : String} {value : Option String} (hkind : kind = some .atRule)
    (hc : c = ';' ∨ c = '{') (after : List Char)
    (htext : text = Printing.atHeader name value ++ after) (hafter : ∀ d ∈ after, d = ' ')
    (hname : Text.IsName name) (hvalue : ∀ v, value = some v → Text.IsPlainValue v) :
    ∃ o stop, Rule.atRule.scan s =
      (.token (OpenToken.close o (.atRule name value (c = '{')) stop),
        { s with current := none }) := by
  obtain ⟨o, hcurrent, ho⟩ := h.exists_current hkind
  have hspace : Text.isBlank ' ' = true := by decide
  have hstring : Text.insideString s.bodyText = false := by
    rw [h.bodyText, htext]
    refine Text.insideString_of_isQuote ?_
    intro d hd
    rcases List.mem_append.1 hd with hd | hd
    · exact Printing.isQuote_atHeader hname hvalue hd
    · rw [hafter d hd]
      decide
  have hparens : Text.openParens s.bodyText = 0 := by
    rw [h.bodyText, htext]
    exact Printing.openParens_atHeader hname hvalue hafter
  have hblank : Text.allBlank after = true := by
    refine List.all_eq_true.2 fun d hd => ?_
    rw [hafter d hd]
    exact hspace
  have hread : Payload.splitAtRule s.bodyText = (name, value) := by
    rw [h.bodyText, htext]
    exact Printing.splitAtRule_atHeader hname hvalue hblank
  have hclose : ¬ (c ≠ ';' ∧ c ≠ '{') := by
    rintro ⟨h₁, h₂⟩
    rcases hc with hc | hc
    · exact h₁ hc
    · exact h₂ hc
  refine ⟨o, if c = '{' then s.bodyStop else s.next, ?_⟩
  simp only [Rule.scan, h.last, h.comment, State.scanAtRule, hcurrent, ho, State.closeAtRule,
    if_neg hclose, hstring, hparens, hread]
  simp

/-- An opening brace with nothing before it opens a block. -/
theorem openBlock (hrules : Rule.lineEnding ∉ rules) (hmem : Rule.block ∈ rules)
    (hkind : kind = none) (hc : c = '{') (htext : text = []) :
    Passing c (passes + 1) rules (Reading ([] :: L) none []) items s := by
  have hcurrent : s.current = none := by simpa [hkind] using h.kind
  have hbody : s.bodyText = [] := by rw [h.bodyText, htext]
  have hspan : Cell.span? s.window.body = none := h.span_eq_none (by simp [htext, Text.allBlank])
  have hstring : Text.insideString s.bodyText = false := by
    rw [hbody]
    rfl
  have hscan : Rule.block.scan s =
      (.consumed, (s.openBlock s.position s.headerStart).clearWindow) := by
    simp [Rule.scan, h.last, h.comment, State.scanBlock, State.currentType, hcurrent, hc,
      State.beginBlock, hstring, hspan]
  refine .of_claim (firstClaim_eq_of_unique h.last hrules hmem hscan (by simp) ?_) rfl ?_
  · intro other o s'' hclaim
    have hrule := h.rule_eq (not_opens_comment (by simp [hc])) hclaim
    have hblank : Text.allBlank (text ++ ['{']) = false := Text.allBlank_concat text (by decide)
    have hboth : other = .selector ∨ other = .block := by simpa [hkind, hc, hblank] using hrule
    rcases hboth with rfl | rfl
    · -- there is no text that could be a selector
      cases hclaim with
      | selector _ _ _ _ hselector => simp [hbody, Selector.isSelector] at hselector
    · rfl
  · refine ⟨?_, ?_, h.comment, by simp [State.openBlock, State.clearWindow, hcurrent],
      s.next, rfl, rfl⟩
    · rw [← h.levels]
      simp [Scan.levels, Outcome.found, Outcome.finding?, State.openBlock, State.clearWindow,
        OpenBlock.children]
    · simpa [Outcome.found, Outcome.finding?] using h.quiet

/-- A semicolon ends an at-rule. -/
theorem closeAtRule {name : String} {value : Option String} (hrules : Rule.lineEnding ∉ rules)
    (hmem : Rule.atRule ∈ rules) (hkind : kind = some .atRule) (hc : c = ';')
    (htext : text = Printing.atHeader name value) (hname : Text.IsName name)
    (hvalue : ∀ v, value = some v → Text.IsPlainValue v) :
    Passing c (passes + 1) rules
      (Reading (extend [.leaf (.atRule name value false)] L) none []) items s := by
  obtain ⟨o, stop, hscan⟩ := h.scan_closeAtRule hkind (Or.inl hc) []
    (by simpa using htext) (by simp) hname hvalue
  refine .of_token (firstClaim_eq_of_unique h.last hrules hmem hscan (by simp) ?_) rfl
    (by simp [OpenToken.close, Leaf.type, hc]) ?_
  · intro other o s'' hclaim
    have hrule := h.rule_eq (not_opens_comment (by simp [hc])) hclaim
    simpa [hkind, hc] using hrule
  · refine h.complete { s with current := none } _ ?_ rfl h.levels rfl h.comment
    simp [OpenToken.close, Token.ofLeaf, Token.shape, hc]

/-- An opening brace ends an at-rule and opens its block. -/
theorem openAtBlock {name : String} {value : Option String} (hrules : Rule.lineEnding ∉ rules)
    (hmem : Rule.atRule ∈ rules) (hkind : kind = some .atRule) (hc : c = '{')
    (htext : text = Printing.atHeader name value ++ [' ']) (hname : Text.IsName name)
    (hvalue : ∀ v, value = some v → Text.IsPlainValue v) :
    Passing c (passes + 2) rules
      (Reading ([] :: extend [.leaf (.atRule name value true)] L) none []) items s := by
  obtain ⟨o, stop, hscan⟩ := h.scan_closeAtRule hkind (Or.inr hc) [' '] htext (by simp)
    hname hvalue
  refine .of_handoff (firstClaim_eq_of_unique h.last hrules hmem hscan (by simp) ?_) rfl
    (by simp [OpenToken.close, Leaf.type, hc]) ?_
  · intro other o s'' hclaim
    have hrule := h.rule_eq (not_opens_comment (by simp [hc])) hclaim
    simpa [hkind, hc] using hrule
  · have hshape : (o.close (.atRule name value (c = '{')) stop).shape =
        .leaf (.atRule name value true) := by
      simp [OpenToken.close, Token.ofLeaf, Token.shape, hc]
    exact (h.again { s with current := none } _ hshape rfl h.levels rfl h.comment rfl rfl).openBlock
      (State.lineEnding_not_mem_rescanRules .atRule) (by decide) rfl hc rfl

/-- A character of a selector stays pending, but a colon may open what looks like a declaration. -/
theorem heading (hrules : Rule.lineEnding ∉ rules) (hstar : ¬ ['/', '*'] <:+ text ++ [c])
    (hkind : kind = none ∨ ∃ name, kind = some (.property name))
    (hc : Selector.isAllowed c = true) (hvisible : Text.allBlank (text ++ [c]) = false) :
    Passing c (passes + 1) rules (Heading L (text ++ [c])) items s := by
  rcases firstClaim_cases rules h.last hrules with
    ⟨hnone, -⟩ | ⟨rule, outcome, s', -, hfirst, hclaim⟩
  · exact .of_skip hnone ⟨kind, hkind, h.toReading⟩
  · have hne (d : Char) (hd : Selector.isAllowed d = false) : c ≠ d := Text.ne_of_class hc hd
    have hrule := h.rule_eq hstar hclaim
    have hcolon : kind = none ∧ c = ':' ∧ rule = .property := by
      rcases hkind with rfl | ⟨name, rfl⟩
      · simpa [hvisible, hne '@' (by decide), hne '{' (by decide), hne ';' (by decide),
          hne '}' (by decide)] using hrule
      · simp [hne '{' (by decide), hne ';' (by decide), hne '}' (by decide)] at hrule
    obtain ⟨rfl, rfl, rfl⟩ := hcolon
    have hcurrent : s.current = none := by simpa using h.kind
    cases hclaim with
    | openProperty _ _ _ _ name _ start =>
      exact .of_claim hfirst rfl ⟨some (.property name), Or.inr ⟨name, rfl⟩,
        h.consumed rfl rfl rfl rfl rfl⟩
    | closeProperty _ _ o ho => simp [hcurrent] at ho
    | rejectBlank _ _ _ hsemicolon => exact absurd hsemicolon (by decide)
    | rejectContent _ _ _ hsemicolon => exact absurd hsemicolon (by decide)

/-- The text before an opening brace is a selector, also when it began like a declaration. -/
theorem openRule {selector : String} (hkind : kind = none ∨ ∃ name, kind = some (.property name))
    (hc : c = '{') (htext : text = selector.toList ++ [' '])
    (hselector : Text.IsPlainSelector selector) :
    Passing c (passes + 2) Rule.order.tail
      (Reading ([] :: extend [.leaf (.selector selector [])] L) none []) items s := by
  have hbare := Text.isBare_of_isTrimmed hselector.nonempty hselector.trimmed
  have htrim : Text.trim s.bodyText = selector.toList := by
    have := hbare.trim [] [' '] (by simp [Text.allBlank]) (by decide)
    rw [h.bodyText, htext]
    simpa using this
  have hstring : Text.insideString s.bodyText = false := by
    rw [h.bodyText, htext]
    refine Text.insideString_of_isQuote ?_
    intro d hd
    rcases List.mem_append.1 hd with hd | hd
    · exact (hselector.allowed d hd).2
    · rw [List.mem_singleton.1 hd]
      decide
  have hallowed : Selector.isSelector selector.toList = true := by
    have hne : selector.toList ≠ [] := by simpa using hselector.nonempty
    exact Selector.isSelector_iff.2 ⟨hne, fun d hd => (hselector.allowed d hd).1⟩
  have hvisible : Text.allBlank text = false := by
    obtain ⟨d, rest, hd, hblank⟩ := hbare.first
    simp [htext, Text.allBlank, hd, hblank]
  obtain ⟨start, stop, hspan⟩ := h.exists_span hvisible
  have hanchors (first last : Nat) : s.window.anchors first last = [] := by
    obtain ⟨p, hwindow, -⟩ := h.window
    rw [hwindow, Window.anchors, Window.cells_ofCells]
    exact anchorsFrom_ofText first last 0 none p _ (by simp)
  have htype : s.currentType = none ∨ s.currentType = some .property := by
    have hmap : s.currentType = kind.map OpenKind.type := by
      rw [← h.kind, Option.map_map]
      rfl
    rcases hkind with hk | ⟨name, hk⟩
    · exact Or.inl (by simp [hmap, hk])
    · exact Or.inr (by simp [hmap, hk, OpenKind.type])
  have hscan : Rule.selector.scan s =
      (.token (.ofLeaf s.nextId (.selector selector []) start stop),
        { s with current := none, nextId := s.nextId + 1 }) := by
    have htake : s.takeSelector =
        (.token (.ofLeaf s.nextId (.selector selector []) start stop),
          { s with current := none, nextId := s.nextId + 1 }) := by
      simp [State.takeSelector, hstring, htrim, hallowed, hspan, hanchors]
    rcases htype with ht | ht
    · simp [Rule.scan, h.last, h.comment, State.scanSelector, hc, ht, htake]
    · simp [Rule.scan, h.last, h.comment, State.scanSelector, hc, ht, htake]
  refine .of_handoff (firstClaim_eq h.last State.lineEnding_not_mem_tail (by decide) hscan
    (by simp) ?_) rfl (by simp [Leaf.type, hc]) ?_
  · -- the rule for blocks would take the brace, but it comes later
    intro other o s'' hclaim
    have hrule := h.rule_eq (not_opens_comment (by simp [hc])) hclaim
    have hblank : Text.allBlank (text ++ ['{']) = false := Text.allBlank_concat text (by decide)
    have hboth : other = .selector ∨ other = .block := by
      rcases hkind with rfl | ⟨name, rfl⟩
      · simpa [hc, hblank] using hrule
      · simpa [hc] using hrule
    rcases hboth with rfl | rfl <;> decide
  · have hshape : (Token.ofLeaf s.nextId (.selector selector []) start stop).shape =
        .leaf (.selector selector []) := rfl
    exact (h.again { s with current := none, nextId := s.nextId + 1 } _ hshape rfl h.levels rfl
      h.comment rfl rfl).openBlock (State.lineEnding_not_mem_rescanRules .selector) (by decide) rfl
      hc rfl

/-- A closing brace with nothing before it closes the innermost block. -/
theorem closeBlock (hrules : Rule.lineEnding ∉ rules) (hmem : Rule.block ∈ rules)
    (hkind : kind = none) (hc : c = '}') (htext : text = []) {inner outer : List Shape}
    {rest : List (List Shape)} (hL : L = inner :: outer :: rest) :
    Passing c (passes + 1) rules (Reading ((outer ++ [.block inner]) :: rest) none []) items s := by
  have hcurrent : s.current = none := by simpa [hkind] using h.kind
  have hspan : Cell.span? s.window.body = none := h.span_eq_none (by simp [htext, Text.allBlank])
  have hstring : Text.insideString s.bodyText = false := by
    rw [h.bodyText, htext]
    rfl
  obtain ⟨b, blocks, hblocks⟩ := List.exists_cons_of_ne_nil (h.blocks_ne_nil hL)
  have hlevels := h.levels
  rw [hL, Scan.levels, hblocks, List.map_cons, List.cons_append, List.cons.injEq] at hlevels
  obtain ⟨hinner, houter⟩ := hlevels
  have hscan : Rule.block.scan s = (.token (b.close s.next), { s with blocks }) := by
    simp [Rule.scan, h.last, h.comment, State.scanBlock, State.currentType, hcurrent, hc,
      State.closeBlock, hstring, hspan, hblocks]
  refine .of_token (firstClaim_eq_of_unique h.last hrules hmem hscan (by simp) ?_) rfl
    (by simp [OpenBlock.close]) ?_
  · intro other o s'' hclaim
    have hrule := h.rule_eq (not_opens_comment (by simp [hc])) hclaim
    have hblank : Text.allBlank (text ++ ['}']) = false := Text.allBlank_concat text (by decide)
    simpa [hkind, hc, hblank] using hrule
  · refine h.complete { s with blocks } _ ?_ rfl houter hcurrent h.comment
    rw [OpenBlock.close, Token.ofChildren, Token.shape, shapeAll_eq_map, hinner]

end Steps

end Offering

end Stylesheet.Scan
