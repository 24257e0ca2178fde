import Stylesheet.Proofs.Breaks.Pattern
import Stylesheet.Proofs.Breaks.Token
import Stylesheet.Proofs.Linting

set_option autoImplicit false

/-! # Checks in both spellings

Every check finds the same in a token and in the token of a source with line breaks of two
characters (`Check.token_crlf`): values follow their grammars in both spellings or in neither,
offsets into a selector are counted anew and lead to the same positions, and indentation is cut into
the same lines. Names are looked up as they are, because they hold no line break. -/

namespace Stylesheet

/-- The names a token carries hold no line feed, and no carriage return stands in its indentation or
its comment. This holds of the tokens of a source without carriage returns. -/
def Leaf.Plain : Leaf → Prop
  | selector .. => True
  | property name _ => '\n' ∉ name.toList
  | atRule name .. => '\n' ∉ name.toList
  | comment text => '\r' ∉ text.toList
  | whitespace text => '\r' ∉ text.toList

namespace Check

open Text

/-! ## At-rules -/

theorem importIssue?_crlf (value : Option String) :
    importIssue? (value.map withCrlf) = (importIssue? value).map (Issue.mapText withCrlf) := by
  cases value with
  | none => rfl
  | some value =>
    have hrest := Prelude.agreesOnBreaks_importUrl.restAfter?_crlf Prelude.holdsBreaks_importUrl
      value.toList
    simp only [importIssue?, Option.map_some, toList_withCrlf, hrest]
    cases Prelude.importUrl.restAfter? value.toList with
    | none => rfl
    | some rest =>
      simp only [Option.map_some, trim_crlf, Prelude.agreesOnBreaks_importConditions.accepts_crlf,
        ← withCrlf_ofList]
      split <;> rfl

theorem charsetIssue?_crlf (value : Option String) :
    charsetIssue? (value.map withCrlf) = (charsetIssue? value).map (Issue.mapText withCrlf) := by
  cases value with
  | none => rfl
  | some value =>
    simp only [charsetIssue?, Option.map_some, toList_withCrlf,
      Prelude.agreesOnBreaks_quoted.accepts_crlf]
    split <;> rfl

theorem layerIssue?_crlf (isBlock : Bool) (value : Option String) :
    layerIssue? isBlock (value.map withCrlf) =
      (layerIssue? isBlock value).map (Issue.mapText withCrlf) := by
  cases value with
  | none => cases isBlock <;> rfl
  | some value =>
    have hlast : (crlf value.toList).getLast? = some ',' ↔ value.toList.getLast? = some ',' := by
      have hsuffix (ds : List Char) : ds.getLast? = some ',' ↔ [','] <:+ ds :=
        List.getLast?_eq_some_iff.trans ⟨fun ⟨f, hf⟩ => ⟨f, hf.symm⟩, fun ⟨f, hf⟩ => ⟨f, hf.symm⟩⟩
      rw [hsuffix, hsuffix, suffix_crlf_iff (by decide)]
    simp only [layerIssue?, Option.map_some, toList_withCrlf, hlast,
      Prelude.hasAdjacentCommas_crlf, Prelude.agreesOnBreaks_layerNames.accepts_crlf]
    split
    · rfl
    · split
      · rfl
      · split <;> rfl

theorem atRule_crlf (k : Knowledge) (place : Placement) {name : String} (hname : '\n' ∉ name.toList)
    (value : Option String) (isBlock : Bool) :
    atRule k place name (value.map withCrlf) isBlock =
      (atRule k place name value isBlock).map Finding.crlf := by
  have hissue : atRuleIssue? k name (value.map withCrlf) isBlock =
      (atRuleIssue? k name value isBlock).map (Issue.mapText withCrlf) := by
    unfold atRuleIssue?
    rw [importIssue?_crlf, charsetIssue?_crlf, layerIssue?_crlf]
    split
    · rfl
    · split
      · simp [Issue.mapText, withCrlf_eq_self hname]
      · split
        · rfl
        · split
          · rfl
          · split <;> rfl
  rw [atRule, hissue, atRule]
  cases atRuleIssue? k name value isBlock <;> rfl

/-! ## Declarations -/

/-- What is said about the name of a declaration mentions that name and the name of the at-rule. -/
theorem mapText_of_mem_propertyIssues {k : Knowledge} {scope : Scope} {name : String}
    (hname : '\n' ∉ name.toList) (hatRule : ∀ a, scope.atRule? = some a → '\n' ∉ a.toList)
    {value : Option String} {issue : Issue} (h : issue ∈ propertyIssues k scope name value) :
    issue.mapText withCrlf = issue := by
  have hself := withCrlf_eq_self hname
  have hissue : ∀ issue, nameIssue? k scope name = some issue → issue.mapText withCrlf = issue := by
    intro issue h
    unfold nameIssue? at h
    split at h
    · split at h
      · cases h
      · cases h
        simp [Issue.mapText, hself]
    · split at h
      · cases h
        simp [Issue.mapText, hself]
      · split at h
        · cases h
          simp [Issue.mapText, hself]
        · split at h
          · next a ha =>
            have hplain := hatRule a (Option.filter_eq_some_iff.1 ha).1
            split at h
            · cases h
            · cases h
              simp [Issue.mapText, hself, withCrlf_eq_self hplain]
          · split at h
            · cases h
            · cases h
              simp [Issue.mapText, hself]
  unfold propertyIssues at h
  split at h
  · rw [List.mem_singleton.1 h]
    rfl
  · rcases List.mem_append.1 h with h | h
    · exact hissue issue (by simpa using h)
    · split at h
      · rw [List.mem_singleton.1 h]
        simp [Issue.mapText, hself]
      · simp at h

theorem property_crlf (k : Knowledge) {scope scope' : Scope} (place : Placement) {name : String}
    (hname : '\n' ∉ name.toList) (hblock : scope'.block.isNone = scope.block.isNone)
    (hatRule : scope'.atRule? = scope.atRule?)
    (hplain : ∀ a, scope.atRule? = some a → '\n' ∉ a.toList) (value : Option String) :
    property k scope' place name (value.map withCrlf) =
      (property k scope place name value).map Finding.crlf := by
  have hissues : propertyIssues k scope' name (value.map withCrlf) =
      propertyIssues k scope name value := by
    rw [propertyIssues, propertyIssues, nameIssue?, nameIssue?, restrictingAtRule?,
      restrictingAtRule?, hblock, hatRule, Option.isNone_map]
  rw [property, property, hissues, List.map_map]
  refine List.map_congr_left fun issue h => ?_
  rw [Function.comp_apply, Finding.crlf_spanning, mapText_of_mem_propertyIssues hname hplain h]

/-! ## Indentation -/

theorem unifyBreaks_cons {c : Char} (hc : c ≠ '\r') (cs : List Char) :
    unifyBreaks (c :: cs) = c :: unifyBreaks cs := by
  rw [unifyBreaks, if_neg hc]
  exact fun ds h => absurd h hc

theorem unifyBreaks_eq_self {cs : List Char} (h : '\r' ∉ cs) : unifyBreaks cs = cs := by
  induction cs with
  | nil => rfl
  | cons c cs ih =>
    simp only [List.mem_cons, not_or] at h
    rw [unifyBreaks_cons (Ne.symm h.1), ih h.2]

theorem unifyBreaks_crlf {cs : List Char} (h : '\r' ∉ cs) : unifyBreaks (crlf cs) = cs := by
  induction cs with
  | nil => rfl
  | cons c cs ih =>
    simp only [List.mem_cons, not_or] at h
    by_cases hc : c = '\n'
    · rw [hc, crlf_lineFeed, unifyBreaks, ih h.2]
    · rw [crlf_cons_of_ne hc, unifyBreaks_cons (Ne.symm h.1), ih h.2]

theorem indentation_crlf (k : Knowledge) (place : Placement) {text : String}
    (h : '\r' ∉ text.toList) :
    indentation k place (withCrlf text) = (indentation k place text).map Finding.crlf := by
  rw [indentation, indentation, runs, toList_withCrlf, unifyBreaks_crlf h, runs,
    unifyBreaks_eq_self h, List.map_map]
  rfl

/-! ## Offsets into a selector -/

theorem locateIn_crlf (start : Position) (anchors : List Anchor) (text : String) (offset : Nat) :
    Token.locateIn start (anchors.map (Anchor.crlf text.toList)) (withCrlf text)
        (crlfOffset text.toList offset) = Token.locateIn start anchors text offset := by
  have hle (a : Anchor) : (a.crlf text.toList).offset ≤ crlfOffset text.toList offset ↔
      a.offset ≤ offset := (strictMono_crlfOffset text.toList).le_iff_le
  have hfind : (anchors.map (Anchor.crlf text.toList)).reverse.find?
      (·.offset ≤ crlfOffset text.toList offset) =
      (anchors.reverse.find? (·.offset ≤ offset)).map (Anchor.crlf text.toList) := by
    rw [← List.map_reverse, List.find?_map]
    simp only [Function.comp_def, hle]
  rw [Token.locateIn, Token.locateIn, hfind, toList_withCrlf]
  cases hbase : anchors.reverse.find? (·.offset ≤ offset) with
  | none =>
    have hslice := slice?_crlf text.toList (Nat.zero_le offset)
    rw [crlfOffset_zero] at hslice
    simp only [Option.map_none, Option.getD_none, hslice]
    cases slice? 0 offset text.toList <;> simp
  | some a =>
    have hbefore : a.offset ≤ offset := by simpa using List.find?_some hbase
    have hslice := slice?_crlf text.toList hbefore
    simp only [Option.map_some, Option.getD_some, Anchor.crlf, hslice]
    cases slice? a.offset offset text.toList <;> simp

theorem selectorFinding_crlf (place : Placement) (text : String) (anchors : List Anchor)
    (offset : Nat) (cs : List Char) (issue : Issue) :
    selectorFinding place (withCrlf text) (anchors.map (Anchor.crlf text.toList))
        (crlfOffset text.toList offset) cs (issue.mapText withCrlf) =
      (selectorFinding place text anchors offset cs issue).crlf := by
  rw [selectorFinding, locateIn_crlf, selectorFinding]
  rfl

theorem forbiddenAt?_crlf (cs : List Char) : forbiddenAt? (crlf cs) =
    (forbiddenAt? cs).map fun (offset, c) => (crlfOffset cs offset, c) := by
  have hoffset : crlfOffset cs (byteSize (cs.takeWhile Selector.isAllowed)) =
      byteSize (crlf (cs.takeWhile Selector.isAllowed)) := by
    simpa using crlfOffset_byteSize (cs.takeWhile Selector.isAllowed)
      (cs.dropWhile Selector.isAllowed)
  rw [forbiddenAt?, forbiddenAt?, Selector.firstForbidden?_crlf, takeWhile_crlf (by decide),
    Option.map_map, ← hoffset]
  rfl

/-! ## Strings blanked out -/

/-- A line break in a string is blanked out, and one outside stays. -/
theorem exists_maskFrom_break {opened : Option Char} (h : ∀ q ∈ opened, isQuote q = true) {c : Char}
    (hc : c ∈ ['\r', '\n']) (cs : List Char) :
    ∃ m ∈ [' ', '\r', '\n'], maskFrom opened (c :: cs) = m :: maskFrom opened cs := by
  have hquote : isQuote c = false := by
    rcases List.mem_pair.1 hc with rfl | rfl <;> rfl
  rw [maskFrom, nextQuote_eq_self h hquote]
  refine ⟨_, ?_, rfl⟩
  split
  · exact List.mem_cons_self ..
  · exact List.mem_cons_of_mem _ hc

/-- Blanking out keeps the sizes of characters. -/
theorem exists_maskFrom_cons (opened : Option Char) (c : Char) :
    ∃ m : Char, m.utf8Size = c.utf8Size ∧
      ∀ cs, maskFrom opened (c :: cs) = m :: maskFrom (nextQuote opened c) cs := by
  refine ⟨_, ?_, fun cs => rfl⟩
  split
  · next h =>
    simp only [isAscii, Bool.and_eq_true, decide_eq_true_eq] at h
    have hone : c.utf8Size = 1 := by
      rw [Char.utf8Size_eq_one_iff, UInt32.le_iff_toNat_le]
      exact Nat.le_of_lt_succ h.2
    rw [hone]
    rfl
  · rfl

theorem count_maskFrom_crlf {p : Char} (hp : p ∉ [' ', '\r', '\n']) (cs : List Char)
    {opened : Option Char} (h : ∀ q ∈ opened, isQuote q = true) :
    (maskFrom opened (crlf cs)).count p = (maskFrom opened cs).count p := by
  induction cs generalizing opened with
  | nil => rfl
  | cons c cs ih =>
    by_cases hc : c = '\n'
    · have hpass {d : Char} (hd : d ∈ ['\r', '\n']) (ds : List Char) :
          (maskFrom opened (d :: ds)).count p = (maskFrom opened ds).count p := by
        obtain ⟨m, hm, hmask⟩ := exists_maskFrom_break h hd ds
        rw [hmask, List.count_cons_of_ne (ne_of_mem_of_not_mem hm hp)]
      rw [hc, crlf_lineFeed, hpass (by simp), hpass (by simp), hpass (by simp), ih h]
    · rw [crlf_cons_of_ne hc, maskFrom, maskFrom, List.count_cons, List.count_cons,
        ih (isQuote_nextQuote h c)]

/-! ## Doubled characters -/

theorem structural_of_mem_doubledFrom {offset n : Nat} {c : Char} {cs : List Char}
    (h : (n, c) ∈ doubledFrom offset cs) : c ∈ structural := by
  fun_induction doubledFrom offset cs with
  | case1 offset d e rest hde ih =>
    rcases List.mem_cons.1 h with h | h
    · rw [(Prod.mk.inj h).2]
      simpa using hde.2
    · exact ih h
  | case2 offset d e rest hde ih => exact ih h
  | case3 => simp at h

/-- A character that is not structural is passed over, and so is one in front of it. -/
theorem doubledFrom_of_not_structural {m : Char} (hm : m ∉ structural) (offset : Nat)
    (cs : List Char) :
    doubledFrom offset (m :: cs) = doubledFrom (offset + m.utf8Size) cs ∧
      ∀ c, doubledFrom offset (c :: m :: cs) = doubledFrom (offset + c.utf8Size) (m :: cs) := by
  constructor
  · cases cs with
    | nil => rfl
    | cons d cs => rw [doubledFrom, if_neg fun h => hm (by simpa using h.2)]
  · intro c
    rw [doubledFrom, if_neg]
    rintro ⟨rfl, h⟩
    exact hm (by simpa using h)

theorem doubledFrom_maskFrom_crlf (front : List Char) {opened : Option Char}
    (h : ∀ q ∈ opened, isQuote q = true) (cs : List Char) :
    doubledFrom (byteSize (crlf front)) (maskFrom opened (crlf cs)) =
      (doubledFrom (byteSize front) (maskFrom opened cs)).map fun (offset, c) =>
        (crlfOffset (front ++ cs) offset, c) := by
  have hblank : ∀ m ∈ [' ', '\r', '\n'], m ∉ structural ∧ m.utf8Size = 1 := by
    intro m hm
    simp only [List.mem_cons, List.not_mem_nil, or_false] at hm
    rcases hm with rfl | rfl | rfl <;> decide
  cases cs with
  | nil => rfl
  | cons c cs =>
    by_cases hc : c = '\n'
    · have hpass {d : Char} (hd : d ∈ ['\r', '\n']) (offset : Nat) (ds : List Char) :
          doubledFrom offset (maskFrom opened (d :: ds)) =
            doubledFrom (offset + 1) (maskFrom opened ds) := by
        obtain ⟨m, hm, hmask⟩ := exists_maskFrom_break h hd ds
        rw [hmask, (doubledFrom_of_not_structural (hblank m hm).1 ..).1, (hblank m hm).2]
      have ih := doubledFrom_maskFrom_crlf (front ++ ['\n']) h cs
      rw [crlf_concat_lineFeed, byteSize_append, byteSize_append, byteSize_append,
        ← List.append_cons] at ih
      rw [hc, crlf_lineFeed, hpass (by simp), hpass (by simp), hpass (by simp)]
      exact ih
    · have hq := isQuote_nextQuote h c
      have ih := doubledFrom_maskFrom_crlf (front ++ [c]) hq cs
      rw [crlf_concat_of_ne front hc, byteSize_append, byteSize_append, ← List.append_cons] at ih
      obtain ⟨m, hsize, hmask⟩ := exists_maskFrom_cons opened c
      rw [crlf_cons_of_ne hc, hmask, hmask]
      cases cs with
      | nil => rfl
      | cons d cs =>
        by_cases hd : d = '\n'
        · -- nothing in front of a line break is doubled
          subst hd
          obtain ⟨n, hn, hfeed⟩ := exists_maskFrom_break hq (c := '\n') (by simp) cs
          obtain ⟨r, hr, hreturn⟩ :=
            exists_maskFrom_break hq (c := '\r') (by simp) ('\n' :: crlf cs)
          rw [crlf_lineFeed, hfeed, hreturn] at ih ⊢
          rw [(doubledFrom_of_not_structural (hblank n hn).1 ..).2,
            (doubledFrom_of_not_structural (hblank r hr).1 ..).2, hsize]
          exact ih
        · obtain ⟨n, hsize', hmask'⟩ := exists_maskFrom_cons (nextQuote opened c) d
          rw [crlf_cons_of_ne hd, hmask', hmask'] at ih ⊢
          rw [doubledFrom, doubledFrom, hsize, hsize']
          split
          · have hpair :=
              doubledFrom_maskFrom_crlf (front ++ [c] ++ [d]) (isQuote_nextQuote hq d) cs
            rw [crlf_concat_of_ne _ hd, crlf_concat_of_ne front hc, byteSize_append,
              byteSize_append, byteSize_append, byteSize_append, ← List.append_cons,
              ← List.append_cons] at hpair
            have hoffset := crlfOffset_byteSize front (c :: d :: cs)
            exact congrArg₂ List.cons (congrArg (·, m) hoffset.symm) hpair
          · exact ih

/-! ## Selectors -/

theorem selector_crlf (place : Placement) (text : String) (anchors : List Anchor) :
    selector place (withCrlf text) (anchors.map (Anchor.crlf text.toList)) =
      (selector place text anchors).map Finding.crlf := by
  have hnone : ∀ q ∈ (none : Option Char), isQuote q = true := by simp
  unfold selector
  rw [toList_withCrlf, forbiddenAt?_crlf]
  cases forbiddenAt? text.toList with
  | some found =>
    exact congrArg (fun f => [f]) (selectorFinding_crlf place text anchors found.1 [found.2]
      (.forbiddenCharacter found.2 text))
  | none =>
    have hdoubled : (doubledFrom 0 (maskQuoted (crlf text.toList))).map (fun (offset, c) =>
          selectorFinding place (withCrlf text) (anchors.map (Anchor.crlf text.toList)) offset
            [c, c] (.doubledCharacter (String.ofList [c, c]) (withCrlf text))) =
        ((doubledFrom 0 (maskQuoted text.toList)).map fun (offset, c) =>
          selectorFinding place text anchors offset [c, c]
            (.doubledCharacter (String.ofList [c, c]) text)).map Finding.crlf := by
      rw [maskQuoted, ← byteSize_nil, ← crlf_nil, doubledFrom_maskFrom_crlf [] hnone, maskQuoted,
        List.map_map, List.map_map]
      refine List.map_congr_left fun (offset, c) hmem => ?_
      -- a doubled character is structural, so the pair of them is spelled in one way
      have hc : c ≠ '\n' := fun h => by
        have := structural_of_mem_doubledFrom hmem
        rw [h] at this
        simp [structural] at this
      have hpair : withCrlf (String.ofList [c, c]) = String.ofList [c, c] :=
        withCrlf_eq_self (by simp [Ne.symm hc])
      have hfinding := selectorFinding_crlf place text anchors offset [c, c]
        (.doubledCharacter (String.ofList [c, c]) text)
      rw [Issue.mapText, hpair] at hfinding
      exact hfinding
    simp only [Option.map_none, hdoubled]
    rw [maskQuoted, maskQuoted, count_maskFrom_crlf (by decide) _ hnone,
      count_maskFrom_crlf (by decide) _ hnone]
    split
    · rfl
    · rw [List.map_append]
      rfl

end Check

/-! ## Tokens -/

/-- The scope in a source with line breaks of two characters. -/
def Scope.crlf (scope : Scope) : Scope := ⟨scope.block.map Token.crlf, scope.opener.map Token.crlf⟩

theorem Scope.atRule?_crlf (scope : Scope) : scope.crlf.atRule? = scope.atRule? := by
  rcases scope with ⟨block, _ | opener⟩
  · rfl
  · cases opener with
    | leaf place content => cases content <;> rfl
    | block place children => rfl

/-- What the token says itself is plain. -/
def Token.Plain : Token → Prop
  | leaf _ content => content.Plain
  | block .. => True

/-- A token is found fault with in the same way in both spellings. -/
theorem Check.token_crlf (k : Knowledge) {scope : Scope} {t : Token} (ht : t.Plain)
    (hopener : ∀ o, scope.opener = some o → o.Plain) :
    Check.token k scope.crlf t.crlf = (Check.token k scope t).map Finding.crlf := by
  cases t with
  | block place children => rfl
  | leaf place content =>
    cases content with
    | comment text => rfl
    | selector text anchors => exact selector_crlf place text anchors
    | whitespace text => exact indentation_crlf k place ht
    | atRule name value isBlock => exact atRule_crlf k place ht value isBlock
    | property name value =>
      refine property_crlf k place ht (Option.isNone_map ..) scope.atRule?_crlf ?_ value
      intro a ha
      rcases scope with ⟨block, _ | opener⟩
      · cases ha
      · have hplain := hopener opener rfl
        cases opener with
        | block place children => cases ha
        | leaf place content =>
          cases content <;> cases ha
          exact hplain

end Stylesheet
