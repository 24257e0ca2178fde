import Stylesheet.Proofs.Breaks.Lint
import Stylesheet.Proofs.Scan.Findings

set_option autoImplicit false

/-! # Where indentation is found fault with

Indentation is cut into lines by a rule of its own, under which a carriage return that no line feed
follows ends a line as well; positions in the source are counted with line feeds alone. A finding
about an indentation character stands where that rule puts the character. As long as every carriage
return before it belongs to a line feed, this is where the character stands in the source
(`Source.indentation_spells`); behind any other it is a place on a line that the source may not even
have (`Source.not_indentation_spells`). -/

namespace Stylesheet

namespace Position

/-- A text without line feeds stays on its line. -/
theorem advanceAll_of_not_mem {cs : List Char} (h : '\n' ∉ cs) (p : Position) :
    p.advanceAll cs = p.shift cs.length := by
  induction cs generalizing p with
  | nil => rfl
  | cons c cs ih =>
    simp only [List.mem_cons, not_or] at h
    rw [advanceAll_cons, advance_of_ne (Ne.symm h.1), ih h.2]
    simp only [nextColumn, shift, List.length_cons, Position.mk.injEq, true_and]
    omega

end Position

/-! ## Two ways to count lines -/

namespace Text

/-- Some carriage return is not followed by a line feed. -/
def hasLoneReturn : List Char → Bool
  | [] => false
  | c :: cs => (c == '\r' && cs.head? != some '\n') || hasLoneReturn cs

/-- A text is as long by the one rule as by the other if no carriage return stands alone. -/
theorem advanceAll_unifyBreaks {cs : List Char} (h : hasLoneReturn cs = false) (p : Position) :
    p.advanceAll (unifyBreaks cs) = p.advanceAll cs := by
  fun_induction unifyBreaks cs generalizing p with
  | case1 => rfl
  | case2 cs ih =>
    simp only [hasLoneReturn, Bool.or_eq_false_iff] at h
    rw [Position.advanceAll_cons, ih h.2.2]
    rfl
  | case3 c cs hpair ih =>
    simp only [hasLoneReturn, Bool.or_eq_false_iff, Bool.and_eq_false_iff, beq_eq_false_iff_ne,
      bne_eq_false_iff_eq] at h
    have hc : c ≠ '\r' := by
      rcases h.1 with hc | hhead
      · exact hc
      · obtain ⟨rest, rfl⟩ := List.head?_eq_some_iff.1 hhead
        exact fun hc => hpair rest hc rfl
    rw [if_neg hc, Position.advanceAll_cons, ih h.2, Position.advanceAll_cons]

/-- Where a text can be cut once its line breaks are unified, it can be cut before. -/
theorem exists_of_unifyBreaks_eq_append {cs as bs : List Char} (h : unifyBreaks cs = as ++ bs) :
    ∃ front back, cs = front ++ back ∧ unifyBreaks front = as ∧ unifyBreaks back = bs := by
  fun_induction unifyBreaks cs generalizing as with
  | case1 =>
    obtain ⟨rfl, rfl⟩ := List.nil_eq_append_iff.1 h
    exact ⟨[], [], rfl, rfl, rfl⟩
  | case2 cs ih =>
    cases as with
    | nil => exact ⟨[], _, rfl, rfl, by rw [unifyBreaks]; exact h⟩
    | cons a as =>
      rw [List.cons_append, List.cons.injEq] at h
      obtain ⟨rfl, h⟩ := h
      obtain ⟨front, back, rfl, rfl, rfl⟩ := ih h
      exact ⟨'\r' :: '\n' :: front, back, rfl, by rw [unifyBreaks], rfl⟩
  | case3 c cs hpair ih =>
    cases as with
    | nil => exact ⟨[], _, rfl, rfl, by rw [unifyBreaks]; exacts [h, hpair]⟩
    | cons a as =>
      rw [List.cons_append, List.cons.injEq] at h
      obtain ⟨rfl, h⟩ := h
      obtain ⟨front, back, rfl, rfl, rfl⟩ := ih h
      refine ⟨c :: front, back, rfl, ?_, rfl⟩
      -- a pair that the cut separates would have been a pair of the whole text
      rw [unifyBreaks]
      rintro rest hc rfl
      exact hpair (rest ++ back) hc rfl

theorem mem_unifyBreaks_of_return {cs : List Char} (h : '\r' ∈ cs) : '\n' ∈ unifyBreaks cs := by
  fun_induction unifyBreaks cs with
  | case1 => simp at h
  | case2 cs ih => simp
  | case3 c cs hpair ih =>
    by_cases hc : c = '\r'
    · simp [hc]
    · rcases List.mem_cons.1 h with h | h
      · exact absurd h.symm hc
      · exact List.mem_cons_of_mem _ (ih h)

/-- What reads the same in a unified text as before is all but line breaks. -/
theorem unifyBreaks_of_not_mem {cs : List Char} (h : '\n' ∉ unifyBreaks cs) :
    unifyBreaks cs = cs :=
  Check.unifyBreaks_eq_self fun hmem => h (mem_unifyBreaks_of_return hmem)

end Text

/-! ## Runs -/

namespace Check

open Text

/-- The run is one of a character that may not indent, in a text that begins at `start` and goes on
with `after` behind the run. -/
def Run.StandsIn (k : Knowledge) (start : Position) (text after : List Char) (r : Run) : Prop :=
  k.allowsIndentation r.char = false ∧ r.char ≠ '\n' ∧ ∃ before n,
    text = before ++ List.replicate (n + 1) r.char ++ after ∧ start.advanceAll before = r.start ∧
    start.advanceAll (before ++ List.replicate (n + 1) r.char) = r.stop

section StandsIn

variable {k : Knowledge} {start : Position} {text after : List Char} {r : Run}

theorem Run.StandsIn.append (h : r.StandsIn k start text after) (rest : List Char) :
    r.StandsIn k start (text ++ rest) (after ++ rest) := by
  obtain ⟨hchar, hbreak, before, n, rfl, hstart, hstop⟩ := h
  exact ⟨hchar, hbreak, before, n, by simp, hstart, hstop⟩

/-- A run of one character begins. -/
theorem Run.standsIn_concat {c : Char} (hchar : k.allowsIndentation c = false) (hbreak : c ≠ '\n')
    (front : List Char) :
    Run.StandsIn k start (front ++ [c]) []
      ⟨c, start.advanceAll front, (start.advanceAll front).nextColumn⟩ := by
  refine ⟨hchar, hbreak, front, 0, by simp, rfl, ?_⟩
  simp [Position.advance_of_ne hbreak]

/-- A run goes on with one more of its characters. -/
theorem Run.StandsIn.concat {front : List Char} (h : r.StandsIn k start front []) :
    Run.StandsIn k start (front ++ [r.char]) []
      { r with stop := (start.advanceAll front).nextColumn } := by
  obtain ⟨hchar, hbreak, before, n, rfl, hstart, hstop⟩ := h
  refine ⟨hchar, hbreak, before, n + 1, ?_, hstart, ?_⟩
  · rw [List.append_nil, List.append_nil, List.append_assoc, ← List.replicate_succ']
  · simp only [List.append_nil]
    rw [List.replicate_succ', ← List.append_assoc, Position.advanceAll_append,
      Position.advanceAll_cons, Position.advanceAll_nil, Position.advance_of_ne hbreak]

end StandsIn

/-- The runs of a line stand in the text up to it and the line; `run` is the one that ends right
before the rest of the line, if there is one. -/
theorem standsIn_of_mem_runsFrom (k : Knowledge) (start : Position) {line : List Char}
    (hline : '\n' ∉ line) (front : List Char) {run : Option Run}
    (hrun : ∀ r ∈ run, r.StandsIn k start front []) {r : Run}
    (h : r ∈ runsFrom k run (start.advanceAll front) line) :
    ∃ after, r.StandsIn k start (front ++ line) after := by
  induction line generalizing front run with
  | nil => exact ⟨[], by simpa using hrun r (by simpa [runsFrom] using h)⟩
  | cons c cs ih =>
    simp only [List.mem_cons, not_or] at hline
    have hc : c ≠ '\n' := Ne.symm hline.1
    have hnext : (start.advanceAll front).nextColumn = start.advanceAll (front ++ [c]) := by
      simp [Position.advance_of_ne hc]
    have hended {r : Run} (hr : r ∈ run) : ∃ after, r.StandsIn k start (front ++ c :: cs) after :=
      ⟨_, (hrun r hr).append _⟩
    rw [List.append_cons]
    rw [List.append_cons] at hended
    simp only [runsFrom] at h
    by_cases hallowed : k.allowsIndentation c = true
    · rw [if_pos hallowed, hnext, List.mem_append] at h
      rcases h with h | h
      · exact hended (by simpa using h)
      · exact ih hline.2 _ (by simp) h
    · have hbegun : Run.StandsIn k start (front ++ [c]) []
          ⟨c, start.advanceAll front, (start.advanceAll front).nextColumn⟩ :=
        Run.standsIn_concat (by simpa using hallowed) hc front
      rw [if_neg hallowed] at h
      cases run with
      | none =>
        simp only [hnext] at h hbegun
        exact ih hline.2 _ (by simpa using hbegun) h
      | some pending =>
        dsimp only at h
        split at h
        · next hsame =>
          have hlonger := (hrun pending rfl).concat
          rw [hsame, hnext] at hlonger
          rw [hnext] at h
          exact ih hline.2 _ (by simpa [hsame] using hlonger) h
        · rcases List.mem_cons.1 h with rfl | h
          · exact hended rfl
          · simp only [hnext] at h hbegun
            exact ih hline.2 _ (by simpa using hbegun) h

/-- The runs of lines stand in the text up to the lines and the lines. -/
theorem standsIn_of_mem_lineRuns (k : Knowledge) (start : Position) (front line : List Char)
    (rest : List (List Char)) (hlines : ∀ piece ∈ line :: rest, '\n' ∉ piece) {r : Run}
    (h : r ∈ runsFrom k none (start.advanceAll front) line ++
      lineRuns k ((start.advanceAll front).line + 1) rest) :
    ∃ after, r.StandsIn k start (front ++ joinLines (line :: rest)) after := by
  have hfirst {front line : List Char} (hline : '\n' ∉ line)
      (hmem : r ∈ runsFrom k none (start.advanceAll front) line) :=
    standsIn_of_mem_runsFrom k start hline front (by simp) hmem
  induction rest generalizing front line with
  | nil =>
    rw [show joinLines [line] = line by simp [joinLines]]
    exact hfirst (hlines line (by simp)) (by simpa [lineRuns] using h)
  | cons next rest ih =>
    have hline : '\n' ∉ line := hlines line (by simp)
    rw [Payload.joinLines_cons_cons]
    rcases List.mem_append.1 h with h | h
    · obtain ⟨after, hafter⟩ := hfirst hline h
      exact ⟨_, by simpa using hafter.append ('\n' :: joinLines (next :: rest))⟩
    · -- the line below begins where the line feed leads
      have hbelow : start.advanceAll (front ++ line ++ ['\n']) =
          ⟨(start.advanceAll front).line + 1, 1⟩ := by
        rw [Position.advanceAll_append, Position.advanceAll_append,
          Position.advanceAll_of_not_mem hline]
        rfl
      have hrest := ih (front ++ line ++ ['\n']) next
        (fun piece hpiece => hlines piece (List.mem_cons_of_mem _ hpiece))
        (by rw [hbelow]; simpa [lineRuns, Position.clamped] using h)
      simpa using hrest

/-- The runs of an indentation stand in its text with the line breaks unified. -/
theorem standsIn_of_mem_runs {k : Knowledge} {start : Position} {text : List Char} {r : Run}
    (h : r ∈ runs k start text) : ∃ after, r.StandsIn k start (unifyBreaks text) after := by
  rw [← joinLines_lines (unifyBreaks text)]
  unfold runs at h
  split at h
  · simp at h
  · next first rest hsplit =>
    rw [hsplit]
    exact standsIn_of_mem_lineRuns k start [] first rest
      (fun piece hpiece => not_mem_of_mem_lines (hsplit ▸ hpiece)) h

/-- A run of an indentation stands in its text, behind what comes before it there with the line
breaks unified. -/
theorem exists_of_mem_runs {k : Knowledge} {start : Position} {text : List Char} {r : Run}
    (h : r ∈ runs k start text) :
    k.allowsIndentation r.char = false ∧ r.char ≠ '\n' ∧ ∃ before n after,
      text = before ++ List.replicate (n + 1) r.char ++ after ∧
      r.start = start.advanceAll (unifyBreaks before) ∧ r.stop = r.start.shift (n + 1) := by
  obtain ⟨after', hchar, hbreak, before', n, htext, hstart, hstop⟩ := standsIn_of_mem_runs h
  obtain ⟨front, after, rfl, hfront, -⟩ := exists_of_unifyBreaks_eq_append htext
  obtain ⟨before, run, rfl, rfl, hrun⟩ := exists_of_unifyBreaks_eq_append hfront
  have hnone : '\n' ∉ List.replicate (n + 1) r.char :=
    fun hmem => hbreak (List.eq_of_mem_replicate hmem).symm
  rw [unifyBreaks_of_not_mem (hrun ▸ hnone)] at hrun
  refine ⟨hchar, hbreak, before, n, after, by rw [hrun], hstart.symm, ?_⟩
  rw [← hstop, Position.advanceAll_append, hstart, Position.advanceAll_of_not_mem hnone,
    List.length_replicate]

/-! ## What the other checkers report -/

theorem key_of_importIssue? {value : Option String} {issue : Issue}
    (h : importIssue? value = some issue) : issue.key = .invalidAtRuleValue := by
  cases value <;> grind [importIssue?, Issue.key]

theorem key_of_charsetIssue? {value : Option String} {issue : Issue}
    (h : charsetIssue? value = some issue) : issue.key = .invalidAtRuleValue := by
  cases value <;> grind [charsetIssue?, Issue.key]

theorem key_of_layerIssue? {isBlock : Bool} {value : Option String} {issue : Issue}
    (h : layerIssue? isBlock value = some issue) : issue.key = .invalidAtRuleValue := by
  cases value <;> grind [layerIssue?, Issue.key]

theorem key_of_atRuleIssue? {k : Knowledge} {name : String} {value : Option String}
    {isBlock : Bool} {issue : Issue} (h : atRuleIssue? k name value isBlock = some issue) :
    issue.key = .invalidAtRuleDeclaration ∨ issue.key = .invalidAtRuleValue := by
  unfold atRuleIssue? at h
  repeat' split at h
  · cases h; exact Or.inl rfl
  · cases h; exact Or.inl rfl
  · exact Or.inr (key_of_importIssue? h)
  · exact Or.inr (key_of_charsetIssue? h)
  · exact Or.inr (key_of_layerIssue? h)
  · simp at h

theorem key_of_nameIssue? {k : Knowledge} {scope : Scope} {name : String} {issue : Issue}
    (h : nameIssue? k scope name = some issue) : issue.key = .invalidPropertyDeclaration := by
  grind [nameIssue?, Issue.key]

theorem key_of_mem_propertyIssues {k : Knowledge} {scope : Scope} {name : String}
    {value : Option String} {issue : Issue} (h : issue ∈ propertyIssues k scope name value) :
    issue.key = .invalidPropertyDeclaration := by
  unfold propertyIssues at h
  split at h
  · rw [List.mem_singleton.1 h]
    rfl
  · rcases List.mem_append.1 h with h | h
    · exact key_of_nameIssue? (by simpa using h)
    · split at h
      · rw [List.mem_singleton.1 h]
        rfl
      · simp at h

/-- A selector is reported for a character outside the alphabet or else for doubled characters and
for its parentheses. -/
theorem cases_of_mem_selector {place : Placement} {text : String} {anchors : List Anchor}
    {f : Finding} (h : f ∈ selector place text anchors) :
    (∃ offset c, forbiddenAt? text.toList = some (offset, c) ∧
        f = selectorFinding place text anchors offset [c] (.forbiddenCharacter c text)) ∨
      (∃ offset c, (offset, c) ∈ doubledFrom 0 (Text.maskQuoted text.toList) ∧
        f = selectorFinding place text anchors offset [c, c]
          (.doubledCharacter (String.ofList [c, c]) text)) ∨
      f = .spanning (.unbalancedParentheses text) place.start place.stop := by
  unfold selector at h
  split at h
  · next offset c hforbidden =>
    exact Or.inl ⟨offset, c, hforbidden, List.mem_singleton.1 h⟩
  · dsimp only at h
    split at h
    · obtain ⟨⟨offset, c⟩, hpair, rfl⟩ := List.mem_map.1 h
      exact Or.inr (Or.inl ⟨offset, c, hpair, rfl⟩)
    · rcases List.mem_append.1 h with h | h
      · obtain ⟨⟨offset, c⟩, hpair, rfl⟩ := List.mem_map.1 h
        exact Or.inr (Or.inl ⟨offset, c, hpair, rfl⟩)
      · exact Or.inr (Or.inr (List.mem_singleton.1 h))

theorem key_of_mem_selector {place : Placement} {text : String} {anchors : List Anchor}
    {f : Finding} (h : f ∈ selector place text anchors) :
    f.key = .unexpectedSelectorCharacter := by
  rcases cases_of_mem_selector h with ⟨offset, c, -, rfl⟩ | ⟨offset, c, -, rfl⟩ | rfl <;> rfl

/-- The type of the tokens that are checked for findings of the class. -/
def checkedType? : FindingKey → Option TokenType
  | .unexpectedSelectorCharacter => some .selector
  | .invalidPropertyDeclaration => some .property
  | .invalidIndentationCharacter => some .whitespace
  | .invalidAtRuleDeclaration | .invalidAtRuleValue => some .atRule
  | _ => none

/-- The class of a finding about a token tells the type of the token. -/
theorem checkedType?_of_mem_token {k : Knowledge} {scope : Scope} {t : Token} {f : Finding}
    (h : f ∈ Check.token k scope t) : checkedType? f.key = some t.type := by
  cases t with
  | block place children => simp [Check.token] at h
  | leaf place content =>
    cases content with
    | comment text => simp [Check.token] at h
    | whitespace text =>
      obtain ⟨run, -, rfl⟩ := List.mem_map.1 h
      rfl
    | selector text anchors =>
      rw [key_of_mem_selector h]
      rfl
    | property name value =>
      obtain ⟨issue, hissue, rfl⟩ := List.mem_map.1 h
      rw [Finding.key, Finding.spanning, key_of_mem_propertyIssues hissue]
      rfl
    | atRule name value isBlock =>
      simp only [Check.token, Check.atRule, Option.mem_toList, Option.map_eq_some_iff] at h
      obtain ⟨issue, hissue, rfl⟩ := h
      rw [Finding.key, Finding.spanning]
      rcases key_of_atRuleIssue? hissue with hkey | hkey <;> rw [hkey] <;> rfl

/-- Only indentation is found fault with for its characters. -/
theorem exists_whitespace_of_mem_token {k : Knowledge} {scope : Scope} {t : Token} {f : Finding}
    (h : f ∈ Check.token k scope t) (hkey : f.key = .invalidIndentationCharacter) :
    ∃ place text, t = .leaf place (.whitespace text) ∧ f ∈ indentation k place text := by
  have htype := checkedType?_of_mem_token h
  rw [hkey, checkedType?, Option.some.injEq] at htype
  cases t with
  | block place children => simp [Token.type] at htype
  | leaf place content =>
    cases content with
    | whitespace text => exact ⟨place, text, rfl, h⟩
    | _ => simp [Token.type, Leaf.type] at htype

end Check

/-! ## Findings about a source -/

/-- A part of what the source says between two positions stands where the text before it leads. -/
theorem Scan.Spells.part {cs before text after : List Char} {start stop : Position}
    (h : Spells cs (before ++ text ++ after) start stop) :
    Spells cs text (start.advanceAll before) (start.advanceAll (before ++ text)) ∧
      start.advanceAll (before ++ text) ≤ stop := by
  obtain ⟨front, back, rfl, rfl, rfl⟩ := h
  refine ⟨⟨front ++ before, after ++ back, by simp, by simp, by simp⟩, ?_⟩
  simp only [Position.advanceAll_append]
  exact Position.le_advanceAll _ _

mutual

/-- Linting a token passes no structural finding on. -/
theorem Token.report_not_mem_steps (f : Finding) (scope : Scope) (previous : Option Token)
    (t : Token) : .report f ∉ t.steps scope previous := by
  cases t with
  | leaf place content => simp [Token.steps]
  | block place children =>
    rw [Token.steps, List.mem_cons, not_or]
    exact ⟨by simp, Token.report_not_mem_stepsAll f _ _ children⟩

theorem Token.report_not_mem_stepsAll (f : Finding) (scope : Scope) (previous : Option Token)
    (ts : List Token) : .report f ∉ Token.stepsAll scope previous ts := by
  cases ts with
  | nil => simp [Token.stepsAll]
  | cons t ts =>
    rw [Token.stepsAll, List.mem_append, not_or]
    exact ⟨Token.report_not_mem_steps f _ _ t, Token.report_not_mem_stepsAll f _ _ ts⟩

end

theorem mem_findingsOf_of_report {f : Finding} {previous : Option Token} {items : List Item}
    (h : .report f ∈ stepsOf previous items) : f ∈ findingsOf items := by
  induction items generalizing previous with
  | nil => simp [stepsOf] at h
  | cons item items ih =>
    cases item with
    | finding g =>
      rw [stepsOf, List.mem_cons, LintStep.report.injEq] at h
      rw [findingsOf_cons_finding, List.mem_cons]
      exact h.imp_right ih
    | token t =>
      rw [stepsOf, List.mem_append] at h
      exact ih (h.resolve_left (Token.report_not_mem_steps f _ _ t))

theorem Issue.key_ne_of_isStray {issue : Issue} (h : issue.isStray = true ∨ issue.isFinal = true) :
    issue.key ≠ .invalidIndentationCharacter := by
  cases issue <;> simp [isStray, isFinal, key] at h ⊢

namespace Source

/-- What scanning a source reports is stray text or about its end. -/
theorem isStray_or_isFinal (source : Source) {f : Finding}
    (h : f ∈ findingsOf source.tokenize.items) :
    f.issue.isStray = true ∨ f.issue.isFinal = true := by
  cases hfailure : source.characters.failure with
  | some failure =>
    rw [items_tokenize_of_failure hfailure] at h
    exact Or.inl (Scan.State.isStray_of_mem_itemsOf _ f h)
  | none =>
    rw [items_tokenize hfailure, Scan.scanText, findingsOf_append, List.mem_append] at h
    rcases h with h | h
    · exact Or.inl (Scan.State.isStray_of_mem_itemsOf _ f h)
    · exact Or.inr (Scan.State.isFinal_finish _ f h)

/-- An indentation says what the source says where it stands. -/
theorem spells_of_whitespace (source : Source) {place : Placement} {text : String}
    (h : .leaf place (.whitespace text) ∈ source.tokens) :
    Scan.Spells source.characters.items text.toList place.start place.stop := by
  obtain ⟨blocks, htold⟩ := source.told_tokenize
  refine htold.tokens (.leaf place (.whitespace text)) ?_
  rw [Scan.finished, List.flatMap_append]
  exact List.mem_append_left _ h

/-- A finding about an indentation character is one about a run in an indentation of the source. -/
theorem exists_indentation_of_mem {source : Source} {k : Knowledge} {f : Finding}
    (hf : f ∈ (source.findings k).items) (hkey : f.key = .invalidIndentationCharacter) :
    ∃ place text, .leaf place (.whitespace text) ∈ source.tokens ∧
      f ∈ Check.indentation k place text := by
  rw [items_findings, List.mem_flatMap] at hf
  obtain ⟨step, hstep, hf⟩ := hf
  cases step with
  | report g =>
    rw [LintStep.findings, List.mem_singleton] at hf
    have hissue := source.isStray_or_isFinal (mem_findingsOf_of_report hstep)
    exact absurd (hf ▸ hkey) (Issue.key_ne_of_isStray hissue)
  | check scope t =>
    obtain ⟨place, text, rfl, hmem⟩ := Check.exists_whitespace_of_mem_token hf hkey
    exact ⟨place, text, (source.mem_tokens_of_check hstep).1, hmem⟩

/-- Every finding about an indentation character is about a run of one character that may not indent
in some indentation of the source. It is as wide as the run and stands behind what comes before it
in the indentation, by the rule that every carriage return ends a line. If none stands alone there,
the finding marks just the run in the source, inside the indentation. -/
theorem indentation_spells (source : Source) (k : Knowledge) {f : Finding}
    (hf : f ∈ (source.findings k).items) (hkey : f.key = .invalidIndentationCharacter) :
    ∃ place text before c n after, .leaf place (.whitespace text) ∈ source.tokens ∧
      text.toList = before ++ List.replicate (n + 1) c ++ after ∧
      k.allowsIndentation c = false ∧ f.issue = .indentationCharacter c ∧
      f.start = place.start.advanceAll (Text.unifyBreaks before) ∧
      f.stop = f.start.shift (n + 1) ∧
      (Text.hasLoneReturn before = false →
        f.start = place.start.advanceAll before ∧
        Scan.Spells source.characters.items (List.replicate (n + 1) c) f.start f.stop ∧
        place.start ≤ f.start ∧ f.stop ≤ place.stop) := by
  obtain ⟨place, text, htoken, hmem⟩ := exists_indentation_of_mem hf hkey
  obtain ⟨run, hrun, rfl⟩ := List.mem_map.1 hmem
  obtain ⟨hchar, hbreak, before, n, after, htext, hstart, hstop⟩ := Check.exists_of_mem_runs hrun
  have hlt : run.start < run.stop := by
    rw [hstop]
    exact Or.inr ⟨rfl, Nat.lt_add_of_pos_right (Nat.succ_pos n)⟩
  rw [Finding.spanning, Position.widen_of_lt hlt]
  refine ⟨place, text, before, run.char, n, after, htoken, htext, hchar, rfl, hstart, hstop, ?_⟩
  intro hlone
  rw [Text.advanceAll_unifyBreaks hlone] at hstart
  have hnone : '\n' ∉ List.replicate (n + 1) run.char :=
    fun hmem => hbreak (List.eq_of_mem_replicate hmem).symm
  have hend : place.start.advanceAll (before ++ List.replicate (n + 1) run.char) = run.stop := by
    rw [Position.advanceAll_append, ← hstart, Position.advanceAll_of_not_mem hnone,
      List.length_replicate, hstop]
  have hspells := source.spells_of_whitespace htoken
  rw [htext] at hspells
  obtain ⟨hrunSpells, hle⟩ := hspells.part
  rw [hend, ← hstart] at hrunSpells
  exact ⟨hstart, hrunSpells, hstart ▸ Position.le_advanceAll _ _, hend ▸ hle⟩

/-- A tab behind a pair of carriage return and line feed. -/
theorem indentation_spells_tab :
    ∃ f ∈ ((ofString "\r\n\ta\x7b\x7d").findings .builtIn).items,
      f.key = .invalidIndentationCharacter ∧
      Scan.Spells (ofString "\r\n\ta\x7b\x7d").characters.items ['\t'] f.start f.stop := by
  have hitems : (ofString "\r\n\ta\x7b\x7d").tokenize.items =
      [.token (.leaf ⟨0, none, none, ⟨1, 1⟩, ⟨2, 2⟩⟩ (.whitespace "\r\n\t")),
        .token (.leaf ⟨1, none, some 0, ⟨2, 2⟩, ⟨2, 3⟩⟩ (.selector "a" [])),
        .token (.block ⟨2, none, some 1, ⟨2, 3⟩, ⟨2, 5⟩⟩ [])] := by
    rw [show "\r\n\ta\x7b\x7d" = String.ofList "\r\n\ta\x7b\x7d".toList from by simp,
      items_tokenize_ofString]
    decide +kernel
  have hf : ⟨.indentationCharacter '\t', ⟨2, 1⟩, ⟨2, 2⟩⟩ ∈
      ((ofString "\r\n\ta\x7b\x7d").findings .builtIn).items := by
    rw [items_findings, steps, hitems]
    decide +kernel
  obtain ⟨place, text, before, c, n, after, htoken, htext, -, hissue, -, hstop, hspells⟩ :=
    indentation_spells _ _ hf rfl
  obtain rfl : n = 0 := by
    simp only [Position.shift, Position.mk.injEq, true_and] at hstop
    omega
  obtain rfl : '\t' = c := by simpa using hissue
  obtain ⟨-, rfl⟩ : place = ⟨0, none, none, ⟨1, 1⟩, ⟨2, 2⟩⟩ ∧ text = "\r\n\t" := by
    rw [tokens, hitems] at htoken
    simpa [Token.preorder, Token.preorderAll] using htoken
  have hreturns : ∀ front ∈ "\r\n\t".toList.inits, front ++ ['\t'] <+: "\r\n\t".toList →
      Text.hasLoneReturn front = false := by decide +kernel
  have hbefore : before <+: "\r\n\t".toList := ⟨['\t'] ++ after, by rw [htext]; simp⟩
  refine ⟨_, hf, rfl, (hspells (hreturns before ((List.mem_inits _ _).2 hbefore) ?_)).2.1⟩
  rw [htext]
  exact List.prefix_append _ _

/-- A tab behind a carriage return of its own is reported on a line that the source does not
have. -/
theorem not_indentation_spells :
    ∃ f ∈ ((ofString "\n\r\ta\x7b\x7d").findings .builtIn).items,
      f.key = .invalidIndentationCharacter ∧
      ∀ before after, (ofString "\n\r\ta\x7b\x7d").characters.items = before ++ after →
        Position.start.advanceAll before ≠ f.start := by
  have hitems : (ofString "\n\r\ta\x7b\x7d").tokenize.items =
      [.token (.leaf ⟨0, none, none, ⟨1, 1⟩, ⟨2, 3⟩⟩ (.whitespace "\n\r\t")),
        .token (.leaf ⟨1, none, some 0, ⟨2, 3⟩, ⟨2, 4⟩⟩ (.selector "a" [])),
        .token (.block ⟨2, none, some 1, ⟨2, 4⟩, ⟨2, 6⟩⟩ [])] := by
    rw [show "\n\r\ta\x7b\x7d" = String.ofList "\n\r\ta\x7b\x7d".toList from by simp,
      items_tokenize_ofString]
    decide +kernel
  have hf : ⟨.indentationCharacter '\t', ⟨3, 1⟩, ⟨3, 2⟩⟩ ∈
      ((ofString "\n\r\ta\x7b\x7d").findings .builtIn).items := by
    rw [items_findings, steps, hitems]
    decide +kernel
  refine ⟨_, hf, rfl, ?_⟩
  have hcharacters : (ofString "\n\r\ta\x7b\x7d").characters.items = "\n\r\ta\x7b\x7d".toList := by
    rw [characters_ofString]
    decide +kernel
  intro before after hsplit
  have hprefix : before ∈ "\n\r\ta\x7b\x7d".toList.inits := by
    rw [List.mem_inits, ← hcharacters, hsplit]
    exact List.prefix_append before after
  have hpositions : ∀ front ∈ "\n\r\ta\x7b\x7d".toList.inits,
      Position.start.advanceAll front ≠ ⟨3, 1⟩ := by decide +kernel
  exact hpositions before hprefix

end Source

end Stylesheet
