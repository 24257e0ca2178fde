import Stylesheet.Prelude
import Stylesheet.Proofs.Breaks.Text

set_option autoImplicit false

/-! # Preludes in both spellings

A pattern is decided by what it leaves after one character and then another. What it can leave at
all is a finite list of patterns (`Pattern.partials`), so one can check by going through the list
that a line break in either spelling always leaves the same (`Pattern.AgreesOnBreaks`). The grammars
of preludes pass the check, and therefore accept a prelude in both spellings or in neither. -/

namespace Stylesheet

namespace Pattern

/-! ## What a pattern can leave -/

theorem append_subset_append {ps ps' qs qs' : List Pattern} (hp : ps ⊆ ps') (hq : qs ⊆ qs') :
    ps ++ qs ⊆ ps' ++ qs' :=
  List.append_subset.2 ⟨List.Subset.trans hp (List.subset_append_left _ _),
    List.Subset.trans hq (List.subset_append_right _ _)⟩

/-- What the pattern can leave after a text that is not empty. -/
def partials : Pattern → List Pattern
  | empty => []
  | char _ => [empty]
  | seq a b => a.partials.map (·.andThen b) ++ b.partials
  | alt a b => a.partials ++ b.partials
  | star a => a.partials.map (·.andThen (star a))

theorem after_subset_partials (c : Char) (p : Pattern) : p.after c ⊆ p.partials := by
  induction p with
  | empty => simp [after]
  | char set =>
    simp only [after, partials]
    split <;> simp
  | seq a b iha ihb =>
    refine append_subset_append (List.map_subset _ iha) ?_
    split
    · exact ihb
    · simp
  | alt a b iha ihb => exact append_subset_append iha ihb
  | star a iha => exact List.map_subset _ iha

theorem after_andThen_subset (c : Char) (a b : Pattern) :
    (a.andThen b).after c ⊆ (a.after c).map (·.andThen b) ++ b.after c := by
  unfold andThen
  split
  · exact List.subset_append_right _ _
  · refine List.append_subset.2 ⟨List.subset_append_left _ _, ?_⟩
    split
    · exact List.subset_append_right _ _
    · simp

/-- What is left of something left is on the list as well. -/
theorem after_subset_of_mem_partials (c : Char) {p q : Pattern} (h : q ∈ p.partials) :
    q.after c ⊆ p.partials := by
  induction p generalizing q with
  | empty => simp [partials] at h
  | char set =>
    rw [partials, List.mem_singleton] at h
    simp [h, after]
  | seq a b iha ihb =>
    rcases List.mem_append.1 h with h | h
    · obtain ⟨r, hr, rfl⟩ := List.mem_map.1 h
      refine List.Subset.trans (after_andThen_subset c r b) ?_
      exact append_subset_append (List.map_subset _ (iha hr)) (after_subset_partials c b)
    · exact List.Subset.trans (ihb h) (List.subset_append_right _ _)
  | alt a b iha ihb =>
    rcases List.mem_append.1 h with h | h
    · exact List.Subset.trans (iha h) (List.subset_append_left _ _)
    · exact List.Subset.trans (ihb h) (List.subset_append_right _ _)
  | star a iha =>
    obtain ⟨r, hr, rfl⟩ := List.mem_map.1 h
    refine List.Subset.trans (after_andThen_subset c r (star a)) (List.append_subset.2 ⟨?_, ?_⟩)
    · exact List.map_subset _ (iha hr)
    · exact after_subset_partials c (star a)

theorem after_subset_partials_of_mem (c : Char) {p q : Pattern} (h : q ∈ p :: p.partials) :
    q.after c ⊆ p.partials := by
  rcases List.mem_cons.1 h with rfl | h
  · exact after_subset_partials c q
  · exact after_subset_of_mem_partials c h

/-! ## Line breaks -/

/-- At any point of a text, a line break in either spelling leaves the same of the pattern. -/
def AgreesOnBreaks (p : Pattern) : Prop :=
  ∀ q ∈ p :: p.partials,
    (∀ r ∈ (q.after '\r').flatMap (after '\n'), r ∈ q.after '\n') ∧
      ∀ r ∈ q.after '\n', r ∈ (q.after '\r').flatMap (after '\n')

instance (p : Pattern) : Decidable p.AgreesOnBreaks :=
  inferInstanceAs (Decidable (∀ q ∈ p :: p.partials, _ ∧ _))

theorem mem_step_iff {patterns : List Pattern} {c : Char} {r : Pattern} :
    r ∈ step patterns c ↔ ∃ q ∈ patterns, r ∈ q.after c := by
  simp [step]

theorem AgreesOnBreaks.mem_step_iff {p : Pattern} (h : p.AgreesOnBreaks) {patterns : List Pattern}
    (hpatterns : patterns ⊆ p :: p.partials) (r : Pattern) :
    r ∈ step (step patterns '\r') '\n' ↔ r ∈ step patterns '\n' := by
  simp only [Pattern.mem_step_iff]
  constructor
  · rintro ⟨m, ⟨q, hq, hm⟩, hr⟩
    exact ⟨q, hq, (h q (hpatterns hq)).1 r (List.mem_flatMap.2 ⟨m, hm, hr⟩)⟩
  · rintro ⟨q, hq, hr⟩
    obtain ⟨m, hm, hr⟩ := List.mem_flatMap.1 ((h q (hpatterns hq)).2 r hr)
    exact ⟨m, ⟨q, hq, hm⟩, hr⟩

theorem step_subset {p : Pattern} {patterns : List Pattern}
    (hpatterns : patterns ⊆ p :: p.partials) (c : Char) : step patterns c ⊆ p :: p.partials := by
  intro r hr
  obtain ⟨q, hq, hr⟩ := Pattern.mem_step_iff.1 hr
  exact List.mem_cons_of_mem _ (after_subset_partials_of_mem c (hpatterns hq) hr)

theorem AgreesOnBreaks.matches_crlf {p : Pattern} (h : p.AgreesOnBreaks) (cs : List Char)
    {patterns : List Pattern} (hpatterns : patterns ⊆ p :: p.partials) :
    (∃ q ∈ patterns, Matches q (Text.crlf cs)) ↔ ∃ q ∈ patterns, Matches q cs := by
  induction cs generalizing patterns with
  | nil => rfl
  | cons c cs ih =>
    by_cases hc : c = '\n'
    · subst hc
      rw [Text.crlf_lineFeed, ← exists_mem_step_iff, ← exists_mem_step_iff, ← exists_mem_step_iff,
        ← ih (step_subset hpatterns '\n')]
      simp only [h.mem_step_iff hpatterns]
    · rw [Text.crlf_cons_of_ne hc, ← exists_mem_step_iff, ← exists_mem_step_iff,
        ih (step_subset hpatterns c)]

/-- A pattern for which line breaks are alike accepts a text in both spellings or in neither. -/
theorem AgreesOnBreaks.accepts_crlf {p : Pattern} (h : p.AgreesOnBreaks) (cs : List Char) :
    p.accepts (Text.crlf cs) = p.accepts cs := by
  have hself : [p] ⊆ p :: p.partials := by simp
  have hmatches := h.matches_crlf cs hself
  simp only [List.mem_singleton, exists_eq_left] at hmatches
  rw [Bool.eq_iff_iff, accepts_iff_matches, accepts_iff_matches, hmatches]

/-! ## The rest of a text -/

/-- No text of the pattern ends between the two characters of a line break. -/
def HoldsBreaks (p : Pattern) : Prop :=
  ∀ q ∈ p :: p.partials, ∀ r ∈ q.after '\r', r.nullable = false

instance (p : Pattern) : Decidable p.HoldsBreaks :=
  inferInstanceAs (Decidable (∀ q ∈ p :: p.partials, _))

theorem any_nullable_congr {patterns patterns' : List Pattern}
    (h : ∀ r, r ∈ patterns ↔ r ∈ patterns') : patterns.any nullable = patterns'.any nullable := by
  rw [Bool.eq_iff_iff]
  simp [List.any_eq_true, h]

/-- Which patterns are on a list decides, not their order. -/
theorem restAfterAny?_congr {patterns patterns' : List Pattern}
    (h : ∀ r, r ∈ patterns ↔ r ∈ patterns') (cs : List Char) :
    restAfterAny? patterns cs = restAfterAny? patterns' cs := by
  induction cs generalizing patterns patterns' with
  | nil => rw [restAfterAny?, any_nullable_congr h, restAfterAny?]
  | cons c cs ih =>
    have hstep (r : Pattern) : r ∈ step patterns c ↔ r ∈ step patterns' c := by
      simp only [Pattern.mem_step_iff, h]
    rw [restAfterAny?, any_nullable_congr h, ih hstep, restAfterAny?]

theorem AgreesOnBreaks.restAfterAny?_crlf {p : Pattern} (h : p.AgreesOnBreaks)
    (hholds : p.HoldsBreaks) (cs : List Char) {patterns : List Pattern}
    (hpatterns : patterns ⊆ p :: p.partials) :
    restAfterAny? patterns (Text.crlf cs) = (restAfterAny? patterns cs).map Text.crlf := by
  induction cs generalizing patterns with
  | nil =>
    rw [Text.crlf_nil, restAfterAny?]
    split <;> rfl
  | cons c cs ih =>
    by_cases hc : c = '\n'
    · subst hc
      have hreturn : (step patterns '\r').any nullable = false := by
        rw [List.any_eq_false]
        intro r hr
        obtain ⟨q, hq, hr⟩ := Pattern.mem_step_iff.1 hr
        simp [hholds q (hpatterns hq) r hr]
      rw [Text.crlf_lineFeed, restAfterAny?, restAfterAny?, restAfterAny?, hreturn,
        restAfterAny?_congr (h.mem_step_iff hpatterns), ih (step_subset hpatterns '\n')]
      split <;> rfl
    · rw [Text.crlf_cons_of_ne hc, restAfterAny?, restAfterAny?, ih (step_subset hpatterns c)]
      split
      · rw [Option.map_some, Text.crlf_cons_of_ne hc]
      · rfl

/-- What is left after the shortest beginning that follows the pattern is the same text. -/
theorem AgreesOnBreaks.restAfter?_crlf {p : Pattern} (h : p.AgreesOnBreaks) (hholds : p.HoldsBreaks)
    (cs : List Char) : p.restAfter? (Text.crlf cs) = (p.restAfter? cs).map Text.crlf :=
  h.restAfterAny?_crlf hholds cs (by simp)

end Pattern

/-! ## The grammars -/

namespace Prelude

theorem agreesOnBreaks_quoted : quoted.AgreesOnBreaks := by decide +kernel

theorem agreesOnBreaks_layerNames : layerNames.AgreesOnBreaks := by decide +kernel

theorem agreesOnBreaks_importConditions : importConditions.AgreesOnBreaks := by decide +kernel

theorem agreesOnBreaks_importUrl : importUrl.AgreesOnBreaks := by decide +kernel

theorem holdsBreaks_importUrl : importUrl.HoldsBreaks := by decide +kernel

theorem beginsWithComma_crlf (cs : List Char) :
    beginsWithComma (Text.crlf cs) = beginsWithComma cs := by
  unfold beginsWithComma
  rw [Text.trimStart_crlf]
  cases Text.trimStart cs with
  | nil => rfl
  | cons c rest =>
    by_cases hc : c = '\n'
    · simp [hc, Text.crlf_lineFeed]
    · simp [Text.crlf_cons_of_ne hc]

theorem hasAdjacentCommas_crlf (cs : List Char) :
    hasAdjacentCommas (Text.crlf cs) = hasAdjacentCommas cs := by
  induction cs with
  | nil => rfl
  | cons c cs ih =>
    by_cases hc : c = '\n'
    · simp [hc, Text.crlf_lineFeed, hasAdjacentCommas, ih]
    · simp [Text.crlf_cons_of_ne hc, hasAdjacentCommas, ih, beginsWithComma_crlf]

end Prelude

end Stylesheet
