import Stylesheet.Proofs.Indentation
import Stylesheet.Proofs.Report

set_option autoImplicit false

/-! # Registering a property silences

The general vocabulary is asked in one place only, for the name of a declaration that no at-rule
restricts, and registering a property changes nothing else that is asked. So the report on a source
stays the same but for the findings that say of the property, or of it with a vendor prefix, that it
is unknown; these go (`Source.findings_addProperty`). -/

namespace Stylesheet

/-! ## The findings that go -/

/-- The issue is that a property is not in the general vocabulary whose name is `name`, in any
case, or a vendor prefix and then `name`. -/
def Issue.SilencedBy (name : String) : Issue → Prop
  | unknownProperty other =>
    Text.lower other = Text.lower name ∨
      name ≠ "" ∧ ∃ vendor ∈ Vocabulary.vendorPrefixes, Text.lower other = vendor ++ Text.lower name
  | _ => False

instance (name : String) (issue : Issue) : Decidable (issue.SilencedBy name) := by
  cases issue with
  | unknownProperty other => exact inferInstanceAs (Decidable (_ ∨ _))
  | _ => exact instDecidableFalse

theorem Issue.SilencedBy.exists_eq {name : String} {issue : Issue} (h : issue.SilencedBy name) :
    ∃ other, issue = .unknownProperty other := by
  cases issue with
  | unknownProperty other => exact ⟨other, rfl⟩
  | _ => exact h.elim

/-! ## The names that a name is looked up under -/

namespace Knowledge

/-- No vendor prefix begins with another one. -/
theorem findSome?_vendorPrefixes {vendor : String} (h : vendor ∈ Vocabulary.vendorPrefixes)
    (rest : List Char) :
    Vocabulary.vendorPrefixes.findSome? (fun v => v.toList.isPrefixOf? (vendor.toList ++ rest)) =
      some rest := by
  simp only [Vocabulary.vendorPrefixes, List.mem_cons, List.not_mem_nil, or_false] at h
  rcases h with rfl | rfl | rfl | rfl <;> rfl

/-- What is left of a name is what stands behind a vendor prefix, if anything does. -/
theorem unprefixed?_eq_some_iff {name rest : String} :
    unprefixed? name = some rest ↔
      rest ≠ "" ∧ ∃ vendor ∈ Vocabulary.vendorPrefixes, name = vendor ++ rest := by
  constructor
  · intro h
    unfold unprefixed? at h
    split at h
    · next c cs hfound =>
      obtain rfl := Option.some.inj h
      obtain ⟨vendor, hvendor, hprefix⟩ := List.exists_of_findSome?_eq_some hfound
      rw [List.isPrefixOf?_eq_some_iff_append_eq] at hprefix
      refine ⟨by simp, vendor, hvendor, String.ext ?_⟩
      rw [String.toList_append, String.toList_ofList, hprefix]
    · cases h
  · rintro ⟨hrest, vendor, hvendor, rfl⟩
    rw [unprefixed?, String.toList_append, findSome?_vendorPrefixes hvendor]
    cases hchars : rest.toList with
    | nil => exact absurd (String.toList_eq_nil_iff.1 hchars) hrest
    | cons c cs => exact congrArg some (by rw [← hchars, String.ofList_toList])

theorem lower_eq_empty_iff {name : String} : Text.lower name = "" ↔ name = "" := by
  rw [← String.toList_eq_nil_iff, ← String.toList_eq_nil_iff, Text.toList_lower,
    List.map_eq_nil_iff]

/-- A name is looked up under just those names that silence what is reported of it. -/
theorem lower_mem_lookupNames_iff {name other : String} :
    Text.lower name ∈ lookupNames other ↔ (Issue.unknownProperty other).SilencedBy name := by
  rw [lookupNames, List.mem_cons, Option.mem_toList, unprefixed?_eq_some_iff, ne_eq,
    lower_eq_empty_iff, eq_comm, Issue.SilencedBy]

/-- Registering a property makes known just what it silences. -/
theorem hasProperty_addProperty_iff (k : Knowledge) (name other : String) :
    (k.addProperty name).hasProperty other = true ↔
      k.hasProperty other = true ∨ (Issue.unknownProperty other).SilencedBy name := by
  rw [← lower_mem_lookupNames_iff]
  simp only [hasProperty, addProperty, NameSet.contains_insert, List.any_eq_true, Bool.or_eq_true,
    beq_iff_eq]
  constructor
  · rintro ⟨n, hn, rfl | hcontains⟩
    · exact Or.inr hn
    · exact Or.inl ⟨n, hn, hcontains⟩
  · rintro (⟨n, hn, hcontains⟩ | hn)
    · exact ⟨n, hn, Or.inr hcontains⟩
    · exact ⟨_, hn, Or.inl rfl⟩

end Knowledge

/-! ## The checks -/

namespace Check

/-- Of what can be wrong with a name, only that the general vocabulary does not have it depends on
the properties that are known. -/
theorem nameIssue?_addProperty (k : Knowledge) (scope : Scope) (name other : String) :
    nameIssue? (k.addProperty name) scope other =
      (nameIssue? k scope other).filter fun issue => ¬ issue.SilencedBy name := by
  have hrestricting : restrictingAtRule? (k.addProperty name) scope = restrictingAtRule? k scope :=
    rfl
  have hdescriptor (a : String) : (k.addProperty name).hasDescriptor a other =
      k.hasDescriptor a other := rfl
  unfold nameIssue?
  simp only [hrestricting, hdescriptor, Knowledge.hasProperty_addProperty_iff]
  split
  · split <;> rfl
  split
  · rfl
  split
  · rfl
  split
  · split <;> rfl
  · -- only here the general vocabulary is asked
    by_cases hknown : k.hasProperty other = true
    · simp [hknown]
    · by_cases hsilenced : (Issue.unknownProperty other).SilencedBy name <;>
        simp [Option.filter_some, hknown, hsilenced]

theorem propertyIssues_addProperty (k : Knowledge) (scope : Scope) (name other : String)
    (value : Option String) :
    propertyIssues (k.addProperty name) scope other value =
      (propertyIssues k scope other value).filter fun issue => ¬ issue.SilencedBy name := by
  unfold propertyIssues
  split
  · rfl
  · rw [nameIssue?_addProperty, List.filter_append, Option.toList_filter]
    congr 1
    split <;> rfl

/-- Indentation is checked against the characters that may indent and nothing else. -/
theorem runsFrom_congr {k k' : Knowledge} (h : k.indentation = k'.indentation) (run : Option Run)
    (position : Position) (cs : List Char) :
    runsFrom k run position cs = runsFrom k' run position cs := by
  have hallows (c : Char) : k.allowsIndentation c = k'.allowsIndentation c := by
    rw [Knowledge.allowsIndentation, h, Knowledge.allowsIndentation]
  induction cs generalizing run position with
  | nil => rfl
  | cons c cs ih => simp only [runsFrom, hallows, ih]

theorem lineRuns_congr {k k' : Knowledge} (h : k.indentation = k'.indentation) (line : Nat)
    (lines : List (List Char)) : lineRuns k line lines = lineRuns k' line lines := by
  induction lines generalizing line with
  | nil => rfl
  | cons cs rest ih => rw [lineRuns, runsFrom_congr h, ih, lineRuns]

theorem indentation_congr {k k' : Knowledge} (h : k.indentation = k'.indentation)
    (place : Placement) (text : String) : indentation k place text = indentation k' place text := by
  unfold indentation runs
  split
  · rfl
  · rw [runsFrom_congr h, lineRuns_congr h]

/-- The findings about a token are the same but for those that go. -/
theorem token_addProperty (k : Knowledge) (scope : Scope) (name : String) (t : Token) :
    token (k.addProperty name) scope t =
      (token k scope t).filter fun f => ¬ f.issue.SilencedBy name := by
  have hother (htype : t.type ≠ .property) :
      (token k scope t).filter (fun f => ¬ f.issue.SilencedBy name) = token k scope t := by
    refine List.filter_eq_self.2 fun f hf => decide_eq_true fun hsilenced => ?_
    obtain ⟨other, hissue⟩ := hsilenced.exists_eq
    have hchecked := checkedType?_of_mem_token hf
    rw [Finding.key, hissue] at hchecked
    exact htype (Option.some.inj hchecked).symm
  cases t with
  | block place children => rfl
  | leaf place content =>
    cases content with
    | property other value =>
      show property (k.addProperty name) scope place other value =
        (property k scope place other value).filter _
      rw [property, propertyIssues_addProperty, property, List.filter_map]
      rfl
    | whitespace text =>
      rw [hother (by simp [Token.type, Leaf.type])]
      have hsame : (k.addProperty name).indentation = k.indentation := rfl
      exact indentation_congr hsame place text
    | _ => rw [hother (by simp [Token.type, Leaf.type])]; rfl

end Check

namespace Source

/-- What scanning reports stays. -/
theorem not_silencedBy_of_report (source : Source) (name : String) {f : Finding}
    (h : .report f ∈ source.steps) : ¬ f.issue.SilencedBy name := by
  intro hsilenced
  obtain ⟨other, hissue⟩ := hsilenced.exists_eq
  have hstructural := source.isStray_or_isFinal (mem_findingsOf_of_report h)
  rw [hissue] at hstructural
  exact hstructural.elim Bool.noConfusion Bool.noConfusion

/-- Once a property is registered, the report on a source is the one from before without the
findings that the property, by its name or by that with a vendor prefix, is not in the general
vocabulary. All other findings stay, in their order, and so does the failure that ends the report,
if one does. -/
theorem findings_addProperty (source : Source) (k : Knowledge) (name : String) :
    source.findings (k.addProperty name) =
      { source.findings k with
        items := (source.findings k).items.filter fun f => ¬ f.issue.SilencedBy name } := by
  have hfailure : (source.findings (k.addProperty name)).failure = (source.findings k).failure := by
    rw [failure_findings, failure_findings]
  have hitems : (source.findings (k.addProperty name)).items =
      (source.findings k).items.filter fun f => ¬ f.issue.SilencedBy name := by
    rw [items_findings, items_findings, List.filter_flatMap]
    refine List.flatMap_congr fun step hstep => ?_
    cases step with
    | report f =>
      have hstays : List.filter (fun f => ¬ f.issue.SilencedBy name) [f] = [f] :=
        List.filter_eq_self.2 (by simpa using source.not_silencedBy_of_report name hstep)
      exact hstays.symm
    | check scope t => exact Check.token_addProperty k scope name t
  show _ = Stream.mk _ (source.findings k).failure
  rw [← hfailure, ← hitems]

end Source

end Stylesheet
