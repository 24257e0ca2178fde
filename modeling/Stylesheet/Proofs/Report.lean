import Stylesheet.Proofs.Scoping

set_option autoImplicit false

/-! # The report of a text

The report on a text is read off its token stream by position alone (`Source.lint_ofString`): the
structural findings, and for every token, a block before what is in it, the findings of the checker
for its type. The numbers by which linting looks up the token before another one play no part in
the result, because they always lead to the token that stands right before. -/

namespace Stylesheet

/-! ## Checked tokens -/

/-- The token that a step checks. -/
def LintStep.token? : LintStep → Option Token
  | report _ => none
  | check _ t => some t

mutual

/-- The steps for a token check it and everything in it, a block before its children. -/
theorem Token.filterMap_steps (scope : Scope) (previous : Option Token) (t : Token) :
    (t.steps scope previous).filterMap LintStep.token? = t.preorder := by
  cases t with
  | leaf place content => rfl
  | block place children =>
    rw [Token.steps, Token.preorder, List.filterMap_cons_some (f := LintStep.token?) rfl,
      Token.filterMap_stepsAll]

theorem Token.filterMap_stepsAll (scope : Scope) (previous : Option Token) (ts : List Token) :
    (Token.stepsAll scope previous ts).filterMap LintStep.token? = Token.preorderAll ts := by
  cases ts with
  | nil => rfl
  | cons t ts =>
    rw [Token.stepsAll, Token.preorderAll, List.filterMap_append, Token.filterMap_steps,
      Token.filterMap_stepsAll]

end

theorem filterMap_stepsOf (previous : Option Token) (items : List Item) :
    (stepsOf previous items).filterMap LintStep.token? =
      (tokensOf items).flatMap Token.preorder := by
  induction items generalizing previous with
  | nil => rfl
  | cons item items ih =>
    cases item with
    | finding f => exact ih previous
    | token t =>
      rw [stepsOf, tokensOf_cons_token, List.flatMap_cons, List.filterMap_append,
        Token.filterMap_steps, ih]

/-- There is at most one checker for a type of token, and it supports the token. -/
theorem check_of_checkersFor (k : Knowledge) (scope : Scope) (t : Token) :
    checkersFor t.type = [] ∧ Check.token k scope t = [] ∨
      ∃ checker, checkersFor t.type = [checker] ∧
        checker.check k scope t = .ok (Check.token k scope t) := by
  cases t with
  | leaf place content =>
    cases content with
    | selector text anchors => exact Or.inr ⟨.selector, rfl, rfl⟩
    | property name value => exact Or.inr ⟨.property, rfl, rfl⟩
    | atRule name value isBlock => exact Or.inr ⟨.atRule, rfl, rfl⟩
    | comment text => exact Or.inl ⟨rfl, rfl⟩
    | whitespace text => exact Or.inr ⟨.indentation, rfl, rfl⟩
  | block place children => exact Or.inl ⟨rfl, rfl⟩

/-! ## The token before -/

mutual

/-- What is nested in a token of a tree is listed in the same order for the tree. -/
theorem Token.preorder_sublist (t : Token) {b : Token} (hb : b ∈ t.preorder) :
    b.preorder.Sublist t.preorder := by
  cases t with
  | leaf place content => rw [List.mem_singleton.1 hb]
  | block place children =>
    rcases List.mem_cons.1 hb with rfl | hb
    · exact List.Sublist.refl _
    · exact (Token.preorder_sublist_preorderAll children hb).cons _

theorem Token.preorder_sublist_preorderAll (ts : List Token) {b : Token}
    (hb : b ∈ Token.preorderAll ts) : b.preorder.Sublist (Token.preorderAll ts) := by
  cases ts with
  | nil => simp [Token.preorderAll] at hb
  | cons t ts =>
    rcases List.mem_append.1 hb with hb | hb
    · exact (Token.preorder_sublist t hb).trans (List.sublist_append_left _ _)
    · exact (Token.preorder_sublist_preorderAll ts hb).trans (List.sublist_append_right _ _)

end

namespace Source

theorem failure_tokenize (source : Source) :
    source.tokenize.failure = source.characters.failure := by
  unfold tokenize outputs
  cases h : source.characters.failure <;> simp [h]

theorem failure_findings (source : Source) (k : Knowledge) :
    (source.findings k).failure = source.characters.failure.map Fault.unreadable := by
  rw [findings, lintItems_tokenize, failure_tokenize, Option.none_or]

/-- Only reading can fail. -/
theorem lint_eq (source : Source) (k : Knowledge) (h : source.characters.failure = none) :
    source.lint k = .ok (source.steps.flatMap (LintStep.findings k)) := by
  rw [lint, findings, lintItems_tokenize, failure_tokenize, h]
  rfl

/-- A token in a block finds the one before it by its number. -/
theorem child?_previous (source : Source) {b : Token} (hb : b ∈ source.tokens)
    {front rest : List Token} {t : Token} (hsplit : b.children = front ++ t :: rest) :
    t.previous.bind b.child? = front.getLast? := by
  obtain ⟨s, hs⟩ := source.forest_tokenize
  have hsiblings := (hs.wellFormed.placed b hb).siblings
  have hids : b.ids.Pairwise (· < ·) := by
    rw [tokens, ← Token.preorderAll_eq_flatMap] at hb
    have hsublist := (Token.preorder_sublist_preorderAll _ hb).map Token.id
    rw [Token.preorderAll_eq_flatMap] at hsublist
    exact hs.wellFormed.increasing.sublist hsublist
  rw [Token.ids_eq_cons, List.pairwise_cons, hsplit] at hids
  rw [hsplit] at hsiblings
  show t.previous.bind (Token.find? b.children) = front.getLast?
  rw [hsplit]
  exact hsiblings.find?_previous hids.2

/-- Linting a text never fails. The report has, in the order of the token stream, the structural
findings and what the one checker for its type finds about each token in its scope: none at all for
the outermost sequence, and otherwise the block that owns the token and what stands right before
that block in its own sequence. Looking up the token before another one by its number finds just
the one that stands right before it. -/
theorem lint_ofString (text : String) (k : Knowledge) :
    let source := ofString text
    source.lint k = .ok (source.steps.flatMap (LintStep.findings k)) ∧
    source.steps.filterMap LintStep.token? = source.tokens ∧
    (∀ scope t, .check scope t ∈ source.steps →
      (checkersFor t.type = [] ∧ LintStep.findings k (.check scope t) = [] ∨
        ∃ checker, checkersFor t.type = [checker] ∧
          checker.check k scope t = .ok (LintStep.findings k (.check scope t))) ∧
      (scope = .topLevel ∧ t ∈ tokensOf source.tokenize.items ∨
        InSequence (tokensOf source.tokenize.items) scope t ∨
        ∃ b ∈ source.tokens, InSequence b.children scope t)) ∧
    (∀ front t rest, tokensOf source.tokenize.items = front ++ t :: rest →
      front.getLast?.filter (fun p => t.previous = some p.id) = front.getLast?) ∧
    (∀ b ∈ source.tokens, ∀ front t rest, b.children = front ++ t :: rest →
      t.previous.bind b.child? = front.getLast?) := by
  intro source
  have hread : source.characters.failure = none := by
    show (ofString text).characters.failure = none
    rw [characters_ofString]
  obtain ⟨s, hs⟩ := source.forest_tokenize
  refine ⟨source.lint_eq k hread, filterMap_stepsOf none _, ?_, ?_, ?_⟩
  · intro scope t hcheck
    exact ⟨check_of_checkersFor k scope t, mem_stepsOf [] source.tokenize.items hcheck⟩
  · intro front t rest hsplit
    exact (hsplit ▸ hs.wellFormed.siblings : Siblings none (front ++ t :: rest)).filter_previous
  · intro b hb front t rest hsplit
    exact source.child?_previous hb hsplit

/-- The second of two declarations finds the first. -/
theorem lint_ofString_declarations :
    ∃ b ∈ (ofString "a{b:c;d:e}").tokens, ∃ first second, b.children = [first, second] ∧
      second.previous.bind b.child? = some first := by
  have hitems : (ofString "a{b:c;d:e}").tokenize.items =
      [.token (.leaf ⟨0, none, none, ⟨1, 1⟩, ⟨1, 2⟩⟩ (.selector "a" [])),
        .token (.block ⟨1, none, some 0, ⟨1, 2⟩, ⟨1, 11⟩⟩
          [.leaf ⟨2, some 1, none, ⟨1, 3⟩, ⟨1, 7⟩⟩ (.property "b" (some "c")),
            .leaf ⟨3, some 1, some 2, ⟨1, 7⟩, ⟨1, 10⟩⟩ (.property "d" (some "e"))])] := by
    rw [show "a{b:c;d:e}" = String.ofList "a{b:c;d:e}".toList from by simp,
      items_tokenize_ofString]
    decide +kernel
  have hblock : ∃ b ∈ (ofString "a{b:c;d:e}").tokens, b.children.length = 2 := by
    rw [tokens, hitems]
    exact ⟨_, .tail _ (.head _), rfl⟩
  obtain ⟨b, hb, hlength⟩ := hblock
  obtain ⟨first, second, hchildren⟩ := List.length_eq_two.1 hlength
  obtain ⟨-, -, -, -, hprevious⟩ := lint_ofString "a{b:c;d:e}" .builtIn
  exact ⟨b, hb, first, second, hchildren, hprevious b hb [first] second [] hchildren⟩

end Source

end Stylesheet
