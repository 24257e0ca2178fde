import Stylesheet.Proofs.Brackets
import Stylesheet.Proofs.Scoping

set_option autoImplicit false

/-! # Parentheses in selectors

A selector is reported for its parentheses when there are more of one kind than of the other,
strings apart. Parentheses that are properly nested come out even, so nothing is reported that is
nested. Parentheses that come out even are nested unless one of them closes nothing that was opened
before it: those of `)(` are *crossed*, and they are the only ones that pass although they are not
nested (`Checker.reports_parentheses_iff`). -/

namespace Stylesheet

/-! ## Nested and crossed parentheses -/

namespace Text

/-- No beginning of the text closes more parentheses than it opens, and the whole text closes all
that it opens. -/
def ParensNested (t : List Char) : Prop := Rises '(' ')' 0 t

/-- The parentheses come out even, but a beginning of the text closes more than it opens. -/
structure ParensCrossed (t : List Char) : Prop where
  count_eq : t.count '(' = t.count ')'
  exists_below : ∃ front, front <+: t ∧ front.count '(' < front.count ')'

theorem ParensNested.count_eq {t : List Char} (h : ParensNested t) : t.count '(' = t.count ')' :=
  Rises.count_eq h

theorem ParensCrossed.not_nested {t : List Char} (h : ParensCrossed t) : ¬ ParensNested t := by
  intro hnested
  obtain ⟨front, hfront, hlt⟩ := h.exists_below
  have hle := Rises.never_below hnested front hfront
  omega

/-- Parentheses come out even when they are nested, and otherwise only when they are crossed. -/
theorem count_parens_eq_iff (t : List Char) :
    t.count '(' = t.count ')' ↔ ParensNested t ∨ ParensCrossed t := by
  constructor
  · intro heq
    by_cases hbelow : ∃ front, front <+: t ∧ front.count '(' < front.count ')'
    · exact Or.inr ⟨heq, hbelow⟩
    · refine Or.inl ⟨?_, heq⟩
      intro front hfront
      by_contra hlt
      exact hbelow ⟨front, hfront, not_le.1 hlt⟩
  · rintro (h | h)
    · exact h.count_eq
    · exact h.count_eq

end Text

/-! ## What is reported -/

/-- The finding is about the parentheses of a selector. -/
def Finding.isAboutParentheses (f : Finding) : Bool :=
  match f.issue with
  | .unbalancedParentheses _ => true
  | _ => false

namespace Check

/-- Of the findings about a selector that stays within the alphabet, one at most is about its
parentheses, and there is one when they do not come out even. -/
theorem filter_isAboutParentheses_selector (place : Placement) {text : String}
    (anchors : List Anchor) (hclass : ∀ c ∈ text.toList, Selector.isAllowed c = true) :
    (selector place text anchors).filter Finding.isAboutParentheses =
      if (Text.maskQuoted text.toList).count '(' = (Text.maskQuoted text.toList).count ')' then []
      else [.spanning (.unbalancedParentheses text) place.start place.stop] := by
  have hforbidden : forbiddenAt? text.toList = none := by
    rw [forbiddenAt?, Selector.firstForbidden?_eq_none_iff.2 hclass]
    rfl
  rw [selector, hforbidden]
  dsimp only
  generalize hdoubled : List.map _ (doubledFrom 0 _) = doubled
  -- findings about doubled characters are not about parentheses
  have hnone : doubled.filter Finding.isAboutParentheses = [] := by
    rw [← hdoubled, List.filter_eq_nil_iff]
    intro f hf
    obtain ⟨⟨offset, c⟩, -, rfl⟩ := List.mem_map.1 hf
    exact Bool.false_ne_true
  split
  · exact hnone
  · rw [List.filter_append, hnone]
    rfl

end Check

/-- A selector within the alphabet is reported for its parentheses at most once, over its own span,
and it is reported just when they are neither nested nor crossed. So as long as none of them closes
more than was opened before it, those that are not nested are reported, and only those. -/
theorem Checker.reports_parentheses_iff (k : Knowledge) (scope : Scope) (place : Placement)
    (text : String) (anchors : List Anchor)
    (hclass : ∀ c ∈ text.toList, Selector.isAllowed c = true) :
    ∃ found, Checker.selector.check k scope (.leaf place (.selector text anchors)) = .ok found ∧
      (found.filter Finding.isAboutParentheses = [] ∨
        found.filter Finding.isAboutParentheses =
          [.spanning (.unbalancedParentheses text) place.start place.stop]) ∧
      ((∃ f ∈ found, f.isAboutParentheses = true) ↔
        ¬ Text.ParensNested (Text.maskQuoted text.toList) ∧
          ¬ Text.ParensCrossed (Text.maskQuoted text.toList)) := by
  have hfilter := Check.filter_isAboutParentheses_selector place anchors hclass
  have hreported : (∃ f ∈ Check.selector place text anchors, f.isAboutParentheses = true) ↔
      (Check.selector place text anchors).filter Finding.isAboutParentheses ≠ [] := by
    simp [List.filter_eq_nil_iff]
  refine ⟨_, rfl, ?_, ?_⟩
  · rw [hfilter]
    split
    · exact Or.inl rfl
    · exact Or.inr rfl
  · rw [hreported, hfilter, ← not_or, ← Text.count_parens_eq_iff]
    split
    · next heq => exact iff_of_false (fun h => h rfl) (fun h => h heq)
    · next hne => exact iff_of_true (List.cons_ne_nil _ _) hne

/-- A parenthesis in a string does not close the one before it. -/
theorem Checker.reports_parentheses_iff_string :
    let t := Token.leaf ⟨0, none, none, ⟨1, 1⟩, ⟨1, 12⟩⟩ (.selector ":is([a=')']" [])
    (∀ c ∈ ":is([a=')']".toList, Selector.isAllowed c = true) ∧
      ∃ found, Checker.selector.check .builtIn .topLevel t = .ok found ∧
        found.filter Finding.isAboutParentheses =
          [⟨.unbalancedParentheses ":is([a=')']", ⟨1, 1⟩, ⟨1, 12⟩⟩] ∧
        ¬ Text.ParensNested (Text.maskQuoted ":is([a=')']".toList) ∧
        ¬ Text.ParensCrossed (Text.maskQuoted ":is([a=')']".toList) := by
  intro t
  have hclass : ∀ c ∈ ":is([a=')']".toList, Selector.isAllowed c = true :=
    List.all_eq_true.1 (by decide +kernel)
  obtain ⟨found, hfound, -, hreported⟩ :=
    Checker.reports_parentheses_iff .builtIn .topLevel ⟨0, none, none, ⟨1, 1⟩, ⟨1, 12⟩⟩
      ":is([a=')']" [] hclass
  have hfilter : found.filter Finding.isAboutParentheses =
      [⟨.unbalancedParentheses ":is([a=')']", ⟨1, 1⟩, ⟨1, 12⟩⟩] := by
    obtain rfl := Except.ok.inj hfound
    decide +kernel
  have hmem := List.mem_filter.1 (hfilter ▸ List.mem_singleton_self _)
  exact ⟨hclass, found, hfound, hfilter, hreported.1 ⟨_, hmem.1, hmem.2⟩⟩

namespace Source

/-- A closing parenthesis before the opening one passes, although nothing is nested there. -/
theorem crossed_parentheses_pass :
    let source := ofString "a)(b{}"
    let t := Token.leaf ⟨0, none, none, ⟨1, 1⟩, ⟨1, 5⟩⟩ (.selector "a)(b" [])
    t ∈ source.tokens ∧ (∀ c ∈ "a)(b".toList, Selector.isAllowed c = true) ∧
      ¬ Text.ParensNested (Text.maskQuoted "a)(b".toList) ∧
      Checker.selector.check .builtIn .topLevel t = .ok [] := by
  intro source t
  have hcharacters : source.characters = { items := "a)(b{}".toList } := by
    rw [characters_ofString]
    decide +kernel
  have hcrossed : Text.ParensCrossed (Text.maskQuoted "a)(b".toList) :=
    ⟨by decide +kernel, "a)".toList, ⟨"(b".toList, by decide +kernel⟩, by decide +kernel⟩
  refine ⟨?_, List.all_eq_true.1 (by decide +kernel), hcrossed.not_nested, ?_⟩
  · rw [tokens, items_tokenize (by rw [hcharacters]), hcharacters]
    decide +kernel
  · show Except.ok (Check.selector _ "a)(b" _) = _
    rw [show Check.selector ⟨0, none, none, ⟨1, 1⟩, ⟨1, 5⟩⟩ "a)(b" [] = [] by decide +kernel]

end Source

end Stylesheet
