import Stylesheet.Check.Checker
import Stylesheet.Proofs.Indentation
import Stylesheet.Proofs.Pattern

set_option autoImplicit false

/-! # What the preludes are

The texts of each prelude grammar, said without patterns: what an address, a list of layer names
and the conditions of an import look like. The address of an import ends where it has to, so there
is only one way to split a prelude into an address and what stands behind it
(`delimited_isAddress`), and the commas that are looked at before a list of layer names is read turn
away nothing that is one. Main statement: `Checker.atRule_preludes`. -/

namespace Stylesheet

open Pattern Text

namespace Prelude

variable {s : List Char}

/-! ## Characters -/

/-- A text of blanks that is not empty. -/
def IsGap (cs : List Char) : Prop := cs ≠ [] ∧ allBlank cs = true

/-- A text without parentheses. -/
def IsFlat (cs : List Char) : Prop := '(' ∉ cs ∧ ')' ∉ cs

/-- The first character of a name. -/
def IsNameStart (c : Char) : Prop := isAsciiLetter c = true ∨ c = '_' ∨ c = '-'

theorem matches_symbol_iff {c : Char} : Matches (symbol c) s ↔ s = [c] := by
  rw [symbol, matches_char_iff]
  simp [CharClass.contains]

theorem matches_blanks_iff : Matches blanks s ↔ allBlank s = true := by
  rw [blanks, matches_star_char_iff, allBlank, List.all_eq_true]
  rfl

theorem matches_someBlanks_iff : Matches someBlanks s ↔ IsGap s := by
  rw [someBlanks, matches_plus_char_iff, IsGap, allBlank, List.all_eq_true]
  rfl

theorem matches_without_iff {chars : List Char} :
    Matches (without chars) s ↔ ∀ c ∈ s, c ∉ chars := by
  rw [without, matches_star_char_iff]
  simp [CharClass.contains]

theorem matches_someWithout_iff {chars : List Char} :
    Matches (someWithout chars) s ↔ s ≠ [] ∧ ∀ c ∈ s, c ∉ chars := by
  rw [someWithout, matches_plus_char_iff]
  simp [CharClass.contains]

theorem isFlat_iff : IsFlat s ↔ ∀ c ∈ s, c ∉ ['(', ')'] := by
  constructor
  · rintro ⟨hopen, hclose⟩ c hc hmem
    rcases List.mem_pair.1 hmem with rfl | rfl
    · exact hopen hc
    · exact hclose hc
  · intro h
    exact ⟨fun hmem => h _ hmem (by decide), fun hmem => h _ hmem (by decide)⟩

theorem contains_nameStart_iff {c : Char} : nameStart.contains c = true ↔ IsNameStart c := by
  simp [nameStart, CharClass.contains, IsNameStart]

/-- A text between two characters. -/
theorem matches_enclosed_iff {p : Pattern} {first last : Char} :
    Matches (all [symbol first, p, symbol last]) s ↔
      ∃ inner, Matches p inner ∧ s = first :: inner ++ [last] := by
  simp only [matches_all_cons_iff, matches_all_nil_iff, matches_symbol_iff]
  constructor
  · rintro ⟨_, _, rfl, rfl, inner, _, rfl, hinner, _, _, rfl, rfl, rfl⟩
    exact ⟨inner, hinner, by simp⟩
  · rintro ⟨inner, hinner, rfl⟩
    exact ⟨[first], inner ++ [last], rfl, rfl, inner, [last], rfl, hinner, [last], [], rfl, rfl,
      rfl⟩

/-! ## Strings and addresses -/

/-- A string: a body between two quotes that are not in it. -/
def IsQuoted (cs : List Char) : Prop :=
  ∃ quote body, (quote = '"' ∨ quote = '\'') ∧ quote ∉ body ∧ cs = quote :: body ++ [quote]

/-- A character of an address without quotes. -/
def IsBareChar (c : Char) : Prop :=
  c ≠ '"' ∧ c ≠ '\'' ∧ c ≠ '(' ∧ c ≠ ')' ∧ isBlank c = false

/-- What `url(...)` may name: a string, or characters that need no quotes. -/
def IsTarget (cs : List Char) : Prop := IsQuoted cs ∨ cs ≠ [] ∧ ∀ c ∈ cs, IsBareChar c

/-- A target in `url(...)`, which may have blanks around it. -/
def IsUrl (cs : List Char) : Prop :=
  ∃ before target after, allBlank before = true ∧ IsTarget target ∧ allBlank after = true ∧
    cs = "url(".toList ++ before ++ target ++ after ++ [')']

/-- An address: `url(...)` or a string. -/
def IsAddress (cs : List Char) : Prop := IsUrl cs ∨ IsQuoted cs

theorem matches_quotedBy_iff {quote : Char} :
    Matches (quotedBy quote) s ↔ ∃ body, quote ∉ body ∧ s = quote :: body ++ [quote] := by
  rw [quotedBy, matches_enclosed_iff]
  simp only [matches_without_iff, List.mem_singleton]
  exact exists_congr fun body => and_congr_left' ⟨fun h hmem => h _ hmem rfl,
    fun h c hc heq => h (heq ▸ hc)⟩

theorem matches_quoted_iff : Matches quoted s ↔ IsQuoted s := by
  rw [quoted, matches_alt_iff, matches_quotedBy_iff, matches_quotedBy_iff]
  constructor
  · rintro (⟨body, h⟩ | ⟨body, h⟩)
    · exact ⟨_, body, Or.inl rfl, h⟩
    · exact ⟨_, body, Or.inr rfl, h⟩
  · rintro ⟨quote, body, rfl | rfl, h⟩
    · exact Or.inl ⟨body, h⟩
    · exact Or.inr ⟨body, h⟩

theorem matches_bareAddress_iff :
    Matches bareAddress s ↔ s ≠ [] ∧ ∀ c ∈ s, IsBareChar c := by
  rw [bareAddress, matches_plus_char_iff]
  simp [CharClass.contains, IsBareChar, and_assoc]

theorem matches_importUrl_iff : Matches importUrl s ↔ IsAddress s := by
  rw [importUrl, matches_alt_iff, matches_quoted_iff, IsAddress, IsUrl]
  refine or_congr_left ?_
  simp only [matches_all_cons_iff, matches_all_nil_iff, matches_literal_iff, matches_blanks_iff,
    matches_alt_iff, matches_quoted_iff, matches_bareAddress_iff, matches_symbol_iff]
  constructor
  · rintro ⟨_, _, rfl, rfl, before, _, rfl, hbefore, target, _, rfl, htarget, after, _, rfl, hafter,
      _, _, rfl, rfl, rfl⟩
    exact ⟨before, target, after, hbefore, htarget, hafter, by simp⟩
  · rintro ⟨before, target, after, hbefore, htarget, hafter, rfl⟩
    exact ⟨_, before ++ (target ++ (after ++ [')'])), by simp, rfl, before, _, rfl, hbefore,
      target, _, rfl, htarget, after, _, rfl, hafter, [')'], [], rfl, rfl, rfl⟩

/-! ## Where an address ends -/

/-- Texts of characters of one kind are the same when a character of another kind ends them. -/
theorem append_cons_inj {P : Char → Prop} {u v r t : List Char} {c d : Char}
    (hu : ∀ x ∈ u, P x) (hv : ∀ x ∈ v, P x) (hc : ¬ P c) (hd : ¬ P d)
    (h : u ++ c :: r = v ++ d :: t) : u = v ∧ c = d ∧ r = t := by
  induction u generalizing v with
  | nil =>
    cases v with
    | nil => exact ⟨rfl, List.cons.inj h⟩
    | cons e v => exact absurd ((List.cons.inj h).1 ▸ hv e List.mem_cons_self) hc
  | cons e u ih =>
    cases v with
    | nil => exact absurd ((List.cons.inj h).1 ▸ hu e List.mem_cons_self) hd
    | cons e' v =>
      obtain ⟨rfl, htail⟩ := List.cons.inj h
      rw [List.forall_mem_cons] at hu hv
      obtain ⟨rfl, hrest⟩ := ih hu.2 hv.2 htail
      exact ⟨rfl, hrest⟩

theorem delimited_isQuoted : Delimited IsQuoted := by
  rintro _ _ r t ⟨quote, body, -, hbody, rfl⟩ ⟨quote', body', -, hbody', rfl⟩ h
  simp only [List.cons_append, List.append_assoc, List.nil_append, List.cons.injEq] at h
  obtain ⟨rfl, h⟩ := h
  have hne {cs : List Char} (hcs : quote ∉ cs) : ∀ c ∈ cs, c ≠ quote :=
    fun c hc heq => hcs (heq ▸ hc)
  obtain ⟨rfl, -, rfl⟩ := append_cons_inj (hne hbody) (hne hbody') (by simp) (by simp) h
  exact ⟨rfl, rfl⟩

theorem not_isBareChar_of_isQuote {c : Char} (h : c = '"' ∨ c = '\'') : ¬ IsBareChar c := by
  rintro ⟨hdouble, hsingle, -⟩
  exact h.elim hdouble hsingle

theorem IsTarget.exists_cons (h : IsTarget s) : ∃ c rest, s = c :: rest ∧ isBlank c = false := by
  rcases h with ⟨quote, body, rfl | rfl, -, rfl⟩ | ⟨hne, hbare⟩
  · exact ⟨_, _, rfl, by decide⟩
  · exact ⟨_, _, rfl, by decide⟩
  · obtain ⟨c, rest, rfl⟩ := List.exists_cons_of_ne_nil hne
    exact ⟨c, rest, rfl, (hbare c List.mem_cons_self).2.2.2.2⟩

/-- A target ends at its second quote or else before the first character that needs quotes. -/
theorem IsTarget.append_inj {u v r t : List Char} {c d : Char} (hu : IsTarget u) (hv : IsTarget v)
    (hc : ¬ IsBareChar c) (hd : ¬ IsBareChar d) (h : u ++ c :: r = v ++ d :: t) :
    u = v ∧ c :: r = d :: t := by
  have hmixed {u v r t : List Char} (hu : IsQuoted u) (hne : v ≠ [])
      (hbare : ∀ x ∈ v, IsBareChar x) : u ++ r ≠ v ++ t := by
    obtain ⟨quote, body, hquote, -, rfl⟩ := hu
    obtain ⟨x, v, rfl⟩ := List.exists_cons_of_ne_nil hne
    intro h
    exact not_isBareChar_of_isQuote hquote ((List.cons.inj h).1 ▸ hbare x List.mem_cons_self)
  rcases hu with hu | ⟨hune, hu⟩ <;> rcases hv with hv | ⟨hvne, hv⟩
  · exact delimited_isQuoted hu hv h
  · exact absurd h (hmixed hu hvne hv)
  · exact absurd h.symm (hmixed hv hune hu)
  · obtain ⟨rfl, rfl, rfl⟩ := append_cons_inj hu hv hc hd h
    exact ⟨rfl, rfl⟩

theorem exists_cons_close {cs : List Char} (hcs : allBlank cs = true) (r : List Char) :
    ∃ c rest, cs ++ ')' :: r = c :: rest ∧ ¬ IsBareChar c := by
  cases cs with
  | nil => exact ⟨_, _, rfl, by simp [IsBareChar]⟩
  | cons c cs =>
    simp only [allBlank, List.all_cons, Bool.and_eq_true] at hcs
    exact ⟨_, _, rfl, by simp [IsBareChar, hcs.1]⟩

theorem delimited_isUrl : Delimited IsUrl := by
  rintro _ _ r t ⟨before, target, after, hbefore, htarget, hafter, rfl⟩
    ⟨before', target', after', hbefore', htarget', hafter', rfl⟩ h
  have hblank {cs : List Char} (hcs : allBlank cs = true) : ∀ c ∈ cs, isBlank c = true :=
    List.all_eq_true.1 hcs
  simp only [List.append_assoc, List.append_cancel_left_eq, List.singleton_append] at h
  obtain ⟨c, rest, rfl, hc⟩ := htarget.exists_cons
  obtain ⟨c', rest', rfl, hc'⟩ := htarget'.exists_cons
  obtain ⟨rfl, rfl, hbehind⟩ :=
    append_cons_inj (hblank hbefore) (hblank hbefore') (by simp [hc]) (by simp [hc']) h
  obtain ⟨d, tail, htail, hd⟩ := exists_cons_close hafter r
  obtain ⟨d', tail', htail', hd'⟩ := exists_cons_close hafter' t
  rw [htail, htail'] at hbehind
  obtain ⟨htargets, htails⟩ :=
    htarget.append_inj htarget' hd hd' (congrArg (List.cons c) hbehind)
  rw [← htail, ← htail'] at htails
  obtain ⟨rfl, -, rfl⟩ :=
    append_cons_inj (hblank hafter) (hblank hafter') (by decide) (by decide) htails
  rw [htargets]
  exact ⟨rfl, rfl⟩

/-- An address is recognized where it stands, whatever stands behind it. -/
theorem delimited_isAddress : Delimited IsAddress := by
  have hmixed {u v r t : List Char} (hu : IsUrl u) (hv : IsQuoted v) : u ++ r ≠ v ++ t := by
    obtain ⟨before, target, after, -, -, -, rfl⟩ := hu
    obtain ⟨quote, body, rfl | rfl, -, rfl⟩ := hv <;> simp
  intro u v r t hu hv h
  rcases hu with hu | hu <;> rcases hv with hv | hv
  · exact delimited_isUrl hu hv h
  · exact absurd h (hmixed hu hv)
  · exact absurd h.symm (hmixed hv hu)
  · exact delimited_isQuoted hu hv h

/-! ## Layers -/

/-- A part of a layer's name. -/
def IsLayerPart (cs : List Char) : Prop :=
  ∃ c rest, IsNameStart c ∧ (∀ d ∈ rest, isWord d = true ∨ d = '-') ∧ cs = c :: rest

/-- The name of a layer: parts with points between them. -/
def IsLayerName : List Char → Prop := Listed (· = ['.']) IsLayerPart

/-- A comma, which may have blanks around it. -/
def IsComma (cs : List Char) : Prop :=
  ∃ before after, allBlank before = true ∧ allBlank after = true ∧ cs = before ++ ',' :: after

/-- Names of layers with commas between them. -/
def IsLayerNames : List Char → Prop := Listed IsComma IsLayerName

theorem matches_layerPart_iff : Matches layerPart s ↔ IsLayerPart s := by
  rw [layerPart, matches_seq_char_iff]
  simp only [matches_star_char_iff, contains_nameStart_iff]
  constructor
  · rintro ⟨c, rest, rfl, hc, hrest⟩
    exact ⟨c, rest, hc, by simpa [CharClass.contains] using hrest, rfl⟩
  · rintro ⟨c, rest, hc, hrest, rfl⟩
    exact ⟨c, rest, rfl, hc, by simpa [CharClass.contains] using hrest⟩

theorem matches_comma_iff : Matches comma s ↔ IsComma s := by
  simp only [comma, matches_all_cons_iff, matches_all_nil_iff, matches_blanks_iff,
    matches_symbol_iff]
  constructor
  · rintro ⟨before, _, rfl, hbefore, _, _, rfl, rfl, after, _, rfl, hafter, rfl⟩
    exact ⟨before, after, hbefore, hafter, by simp⟩
  · rintro ⟨before, after, hbefore, hafter, rfl⟩
    exact ⟨before, _, rfl, hbefore, [','], after, rfl, rfl, after, [], by simp, hafter, rfl⟩

theorem matches_layerName_iff : Matches layerName s ↔ IsLayerName s :=
  matches_separated_iff (fun _ => matches_symbol_iff) (fun _ => matches_layerPart_iff)

theorem matches_layerNames_iff : Matches layerNames s ↔ IsLayerNames s :=
  matches_separated_iff (fun _ => matches_comma_iff) (fun _ => matches_layerName_iff)

/-! ## The commas of a list of layers -/

theorem IsNameStart.isBlank_eq_false {c : Char} (h : IsNameStart c) : isBlank c = false := by
  rcases h with h | rfl | rfl
  · exact isBlank_of_isNameChar (by simp [isNameChar, h])
  · decide
  · decide

theorem IsNameStart.ne_comma {c : Char} (h : IsNameStart c) : c ≠ ',' := by
  rintro rfl
  exact absurd h (by simp [IsNameStart, isAsciiLetter])

theorem IsLayerPart.comma_not_mem (h : IsLayerPart s) : ',' ∉ s := by
  obtain ⟨c, rest, hc, hrest, rfl⟩ := h
  rw [List.mem_cons, not_or]
  refine ⟨hc.ne_comma.symm, fun hmem => absurd (hrest _ hmem) ?_⟩
  simp [isWord, isAscii, isAsciiLetter, isAsciiDigit]

theorem IsLayerName.comma_not_mem (h : IsLayerName s) : ',' ∉ s := by
  induction h with
  | single h => exact h.comma_not_mem
  | cons h hpoint _ ih =>
    subst hpoint
    simp [h.comma_not_mem, ih]

theorem IsLayerName.exists_cons (h : IsLayerName s) : ∃ c rest, s = c :: rest ∧ IsNameStart c := by
  cases h with
  | single h =>
    obtain ⟨c, rest, hc, -, rfl⟩ := h
    exact ⟨c, rest, rfl, hc⟩
  | cons h _ _ =>
    obtain ⟨c, rest, hc, -, rfl⟩ := h
    exact ⟨c, _, rfl, hc⟩

theorem IsLayerNames.exists_cons (h : IsLayerNames s) :
    ∃ c rest, s = c :: rest ∧ IsNameStart c := by
  cases h with
  | single h => exact h.exists_cons
  | cons h _ _ =>
    obtain ⟨c, rest, rfl, hc⟩ := h.exists_cons
    exact ⟨c, _, rfl, hc⟩

/-- A list of layers does not end in a comma. -/
theorem IsLayerNames.getLast?_ne (h : IsLayerNames s) : s.getLast? ≠ some ',' := by
  induction h with
  | single h => exact fun hlast => h.comma_not_mem (List.mem_of_getLast? hlast)
  | @cons s t u _ _ hu ih =>
    obtain ⟨c, rest, rfl, -⟩ := IsLayerNames.exists_cons hu
    rwa [List.getLast?_append_of_ne_nil _ (List.cons_ne_nil c rest)]

theorem hasAdjacentCommas_append {cs : List Char} (h : ',' ∉ cs) (ds : List Char) :
    hasAdjacentCommas (cs ++ ds) = hasAdjacentCommas ds := by
  induction cs with
  | nil => rfl
  | cons c cs ih =>
    rw [List.mem_cons, not_or] at h
    rw [List.cons_append, hasAdjacentCommas, ih h.2, beq_eq_false_iff_ne.2 (Ne.symm h.1)]
    rfl

theorem comma_not_mem_of_allBlank {cs : List Char} (h : allBlank cs = true) : ',' ∉ cs :=
  fun hmem => absurd (List.all_eq_true.1 h _ hmem) (by decide)

/-- In a list of layers no comma follows another one at once. -/
theorem IsLayerNames.hasAdjacentCommas_eq_false (h : IsLayerNames s) :
    hasAdjacentCommas s = false := by
  induction h with
  | @single s h =>
    rw [← List.append_nil s, hasAdjacentCommas_append h.comma_not_mem]
    rfl
  | @cons s t u hs ht hu ih =>
    obtain ⟨before, after, hbefore, hafter, rfl⟩ := ht
    obtain ⟨c, rest, rfl, hc⟩ := IsLayerNames.exists_cons hu
    have hbegins : beginsWithComma (after ++ c :: rest) = false := by
      rw [beginsWithComma, trimStart_append_of_allBlank hafter, trimStart,
        List.dropWhile_cons_of_neg (by simp [hc.isBlank_eq_false])]
      simpa using hc.ne_comma
    rw [List.append_assoc, hasAdjacentCommas_append hs.comma_not_mem, List.append_assoc,
      hasAdjacentCommas_append (comma_not_mem_of_allBlank hbefore), List.cons_append,
      hasAdjacentCommas, hbegins, hasAdjacentCommas_append (comma_not_mem_of_allBlank hafter), ih]
    rfl

/-! ## Conditions of an import -/

/-- Some text in parentheses, without parentheses in it. -/
def IsFeature (cs : List Char) : Prop :=
  ∃ inner, inner ≠ [] ∧ IsFlat inner ∧ cs = '(' :: inner ++ [')']

/-- One of the words and a feature, each behind a gap. -/
def IsJoined (words : List String) (cs : List Char) : Prop :=
  ∃ gap word gap' feature, IsGap gap ∧ word ∈ words ∧ IsGap gap' ∧ IsFeature feature ∧
    cs = gap ++ word.toList ++ gap' ++ feature

/-- `only` or `not` with a gap behind it. -/
def IsQualifier (cs : List Char) : Prop :=
  ∃ word gap, word ∈ ["only", "not"] ∧ IsGap gap ∧ cs = word.toList ++ gap

/-- The name of a media type. -/
def IsMediaType (cs : List Char) : Prop := cs ≠ [] ∧ ∀ c ∈ cs, isAsciiLetter c = true ∨ c = '-'

/-- A media query is a media type, which may be qualified, and features joined to it by `and`, or it
is a feature and features joined to it by `and` or `or`. -/
def IsMediaQuery (cs : List Char) : Prop :=
  (∃ qualifier type features, (qualifier = [] ∨ IsQualifier qualifier) ∧ IsMediaType type ∧
    Repeated (IsJoined ["and"]) features ∧ cs = qualifier ++ type ++ features) ∨
  ∃ first features, IsFeature first ∧ Repeated (IsJoined ["and", "or"]) features ∧
    cs = first ++ features

/-- Media queries with commas between them. -/
def IsMediaQueries : List Char → Prop := Listed IsComma IsMediaQuery

/-- `layer`, alone or with a name in parentheses, which may have blanks around it. -/
def IsImportLayer (cs : List Char) : Prop :=
  cs = "layer".toList ∨
    ∃ before c rest after, allBlank before = true ∧ IsNameStart c ∧
      (∀ d ∈ rest, isWord d = true ∨ d = '.' ∨ d = '-') ∧ allBlank after = true ∧
      cs = "layer(".toList ++ before ++ c :: rest ++ after ++ [')']

/-- A character of what stands in `supports(...)`, or a flat text in parentheses. -/
def IsSupportsPart (cs : List Char) : Prop :=
  (∃ c, IsFlat [c] ∧ cs = [c]) ∨ ∃ inner, IsFlat inner ∧ cs = '(' :: inner ++ [')']

/-- `supports(...)` around a text in which parentheses nest at most once. -/
def IsSupports (cs : List Char) : Prop :=
  ∃ inner, inner ≠ [] ∧ Repeated IsSupportsPart inner ∧
    cs = "supports(".toList ++ inner ++ [')']

/-- The conditions of an import: a layer, a `supports(...)` and media queries. Each may be left out,
and blanks need not stand between them. -/
def IsConditions (cs : List Char) : Prop :=
  ∃ layer gap supports gap' media, (layer = [] ∨ IsImportLayer layer) ∧ allBlank gap = true ∧
    (supports = [] ∨ IsSupports supports) ∧ allBlank gap' = true ∧
    (media = [] ∨ IsMediaQueries media) ∧ cs = layer ++ gap ++ supports ++ gap' ++ media

theorem matches_parenthesized_iff : Matches parenthesized s ↔ IsFeature s := by
  rw [parenthesized, matches_enclosed_iff]
  simp only [matches_someWithout_iff, ← isFlat_iff, and_assoc]
  rfl

theorem matches_joined_iff {p : Pattern} {words : List String}
    (hp : ∀ t, Matches p t ↔ ∃ word ∈ words, t = word.toList) :
    Matches (all [someBlanks, p, someBlanks, parenthesized]) s ↔ IsJoined words s := by
  simp only [matches_all_cons_iff, matches_all_nil_iff, matches_someBlanks_iff, hp,
    matches_parenthesized_iff]
  constructor
  · rintro ⟨gap, _, rfl, hgap, _, _, rfl, ⟨word, hword, rfl⟩, gap', _, rfl, hgap', feature, _, rfl,
      hfeature, rfl⟩
    exact ⟨gap, word, gap', feature, hgap, hword, hgap', hfeature, by simp⟩
  · rintro ⟨gap, word, gap', feature, hgap, hword, hgap', hfeature, rfl⟩
    exact ⟨gap, word.toList ++ (gap' ++ feature), by simp, hgap, _, _, rfl, ⟨word, hword, rfl⟩,
      gap', feature, rfl, hgap', feature, [], by simp, hfeature, rfl⟩

theorem matches_qualifier_iff :
    Matches (seq (alt (literal "only") (literal "not")) someBlanks) s ↔ IsQualifier s := by
  simp only [matches_seq_iff, matches_alt_iff, matches_literal_iff, matches_someBlanks_iff]
  constructor
  · rintro ⟨_, gap, rfl, rfl | rfl, hgap⟩
    · exact ⟨"only", gap, by simp, hgap, rfl⟩
    · exact ⟨"not", gap, by simp, hgap, rfl⟩
  · rintro ⟨word, gap, hword, hgap, rfl⟩
    refine ⟨_, gap, rfl, ?_, hgap⟩
    rcases List.mem_pair.1 hword with rfl | rfl
    · exact Or.inl rfl
    · exact Or.inr rfl

theorem matches_mediaType_iff :
    Matches (plus (char (.either .letter (.oneOf ['-'])))) s ↔ IsMediaType s := by
  rw [matches_plus_char_iff]
  simp [CharClass.contains, IsMediaType]

theorem matches_mediaQuery_iff : Matches mediaQuery s ↔ IsMediaQuery s := by
  have hand (t : List Char) :
      Matches (star (all [someBlanks, literal "and", someBlanks, parenthesized])) t ↔
        Repeated (IsJoined ["and"]) t :=
    matches_star_iff_repeated fun _ => matches_joined_iff fun u => by simp [matches_literal_iff]
  have handor (t : List Char) :
      Matches (star (all [someBlanks, alt (literal "and") (literal "or"), someBlanks,
        parenthesized])) t ↔ Repeated (IsJoined ["and", "or"]) t :=
    matches_star_iff_repeated fun _ => matches_joined_iff fun u => by
      simp [matches_alt_iff, matches_literal_iff]
  rw [mediaQuery, matches_alt_iff, IsMediaQuery]
  refine or_congr ?_ ?_
  · simp only [matches_all_cons_iff, matches_all_nil_iff, matches_optional_iff,
      matches_qualifier_iff, matches_mediaType_iff, hand]
    constructor
    · rintro ⟨qualifier, _, rfl, hqualifier, type, _, rfl, htype, features, _, rfl, hfeatures, rfl⟩
      exact ⟨qualifier, type, features, hqualifier, htype, hfeatures, by simp⟩
    · rintro ⟨qualifier, type, features, hqualifier, htype, hfeatures, rfl⟩
      exact ⟨qualifier, type ++ features, by simp, hqualifier, type, features, rfl, htype,
        features, [], by simp, hfeatures, rfl⟩
  · simp only [matches_seq_iff, matches_parenthesized_iff, handor]
    constructor
    · rintro ⟨first, features, rfl, hfirst, hfeatures⟩
      exact ⟨first, features, hfirst, hfeatures, rfl⟩
    · rintro ⟨first, features, hfirst, hfeatures, rfl⟩
      exact ⟨first, features, rfl, hfirst, hfeatures⟩

theorem matches_mediaQueries_iff : Matches mediaQueries s ↔ IsMediaQueries s :=
  matches_separated_iff (fun _ => matches_comma_iff) (fun _ => matches_mediaQuery_iff)

theorem matches_importLayer_iff : Matches importLayer s ↔ IsImportLayer s := by
  have hrest (t : List Char) : Matches (star (char (.either .word (.oneOf ['.', '-'])))) t ↔
      ∀ d ∈ t, isWord d = true ∨ d = '.' ∨ d = '-' := by
    simp [matches_star_char_iff, CharClass.contains]
  have hopen : "layer(".toList = "layer".toList ++ ['('] := rfl
  simp only [importLayer, matches_seq_iff, matches_optional_iff, matches_all_cons_iff,
    matches_all_nil_iff, matches_literal_iff, matches_symbol_iff, matches_blanks_iff,
    matches_char_iff, contains_nameStart_iff, hrest, IsImportLayer, hopen]
  constructor
  · rintro ⟨_, _, rfl, rfl, rfl | ⟨_, _, rfl, rfl, before, _, rfl, hbefore, _, _, rfl, ⟨c, hc, rfl⟩,
      rest, _, rfl, hrest, after, _, rfl, hafter, _, _, rfl, rfl, rfl⟩⟩
    · exact Or.inl (List.append_nil _)
    · exact Or.inr ⟨before, c, rest, after, hbefore, hc, hrest, hafter, by simp⟩
  · rintro (rfl | ⟨before, c, rest, after, hbefore, hc, hrest, hafter, rfl⟩)
    · exact ⟨_, [], by simp, rfl, Or.inl rfl⟩
    · exact ⟨_, '(' :: (before ++ (c :: (rest ++ (after ++ [')'])))), by simp, rfl,
        Or.inr ⟨['('], _, rfl, rfl, before, _, rfl, hbefore, [c], _, rfl, ⟨c, hc, rfl⟩,
          rest, _, rfl, hrest, after, _, rfl, hafter, [')'], [], rfl, rfl, rfl⟩⟩

theorem matches_supportsPart_iff :
    Matches (alt (char (.outside (.oneOf ['(', ')'])))
      (all [symbol '(', without ['(', ')'], symbol ')'])) s ↔ IsSupportsPart s := by
  rw [matches_alt_iff, matches_enclosed_iff]
  refine or_congr ?_ ?_
  · simp only [matches_char_iff, isFlat_iff, List.forall_mem_singleton]
    simp [CharClass.contains]
  · simp only [matches_without_iff, isFlat_iff]

theorem matches_importSupports_iff : Matches importSupports s ↔ IsSupports s := by
  have hparts (t : List Char) := matches_plus_iff_repeated (s := t)
    (fun _ => matches_supportsPart_iff) (by simp [IsSupportsPart])
  simp only [importSupports, matches_all_cons_iff, matches_all_nil_iff, matches_literal_iff,
    hparts, matches_symbol_iff]
  constructor
  · rintro ⟨_, _, rfl, rfl, inner, _, rfl, ⟨hne, hinner⟩, _, _, rfl, rfl, rfl⟩
    exact ⟨inner, hne, hinner, by simp⟩
  · rintro ⟨inner, hne, hinner, rfl⟩
    exact ⟨_, inner ++ [')'], by simp, rfl, inner, [')'], rfl, ⟨hne, hinner⟩, [')'], [], rfl, rfl,
      rfl⟩

theorem matches_importConditions_iff : Matches importConditions s ↔ IsConditions s := by
  simp only [importConditions, matches_all_cons_iff, matches_all_nil_iff, matches_optional_iff,
    matches_importLayer_iff, matches_blanks_iff, matches_importSupports_iff,
    matches_mediaQueries_iff]
  constructor
  · rintro ⟨layer, _, rfl, hlayer, gap, _, rfl, hgap, supports, _, rfl, hsupports, gap', _, rfl,
      hgap', media, _, rfl, hmedia, rfl⟩
    exact ⟨layer, gap, supports, gap', media, hlayer, hgap, hsupports, hgap', hmedia, by simp⟩
  · rintro ⟨layer, gap, supports, gap', media, hlayer, hgap, hsupports, hgap', hmedia, rfl⟩
    exact ⟨layer, gap ++ (supports ++ (gap' ++ media)), by simp, hlayer, gap, _, rfl, hgap,
      supports, _, rfl, hsupports, gap', media, rfl, hgap', media, [], by simp, hmedia, rfl⟩

/-! ## The preludes that are passed -/

/-- The prelude of an import: an address, and conditions with any blanks around them. -/
def IsImport (value : Option String) : Prop :=
  ∃ text u r, value = some text ∧ text.toList = u ++ r ∧ IsAddress u ∧ IsConditions (trim r)

/-- The prelude of a character set rule: a string. -/
def IsCharset (value : Option String) : Prop := ∃ text, value = some text ∧ IsQuoted text.toList

/-- The prelude of a layer rule: names, or nothing if the layer has a block. -/
def IsLayer (isBlock : Bool) (value : Option String) : Prop :=
  value = none ∧ isBlock = true ∨ ∃ text, value = some text ∧ IsLayerNames text.toList

/-- The prelude follows the grammar of the rules with the given name, which is in lower case. -/
def Follows (name : String) (isBlock : Bool) (value : Option String) : Prop :=
  name = "import" ∧ IsImport value ∨ name = "charset" ∧ IsCharset value ∨
    name = "layer" ∧ IsLayer isBlock value

end Prelude

namespace Check

open Prelude

variable {value : Option String}

theorem importIssue?_eq_none_iff : importIssue? value = none ↔ IsImport value := by
  have hdelimited : Delimited (Matches importUrl) := fun u v r t hu hv h =>
    delimited_isAddress (matches_importUrl_iff.1 hu) (matches_importUrl_iff.1 hv) h
  have hconditions (cs : List Char) : importConditions.accepts cs = true ↔ IsConditions cs :=
    (accepts_iff_matches _ _).trans matches_importConditions_iff
  cases value with
  | none => simp [importIssue?, IsImport]
  | some text =>
    constructor
    · intro h
      rw [importIssue?] at h
      split at h
      · cases h
      · next rest hrest =>
        obtain ⟨u, htext, hu⟩ := (restAfter?_eq_some_iff hdelimited).1 hrest
        have haccepts : importConditions.accepts (trim rest) = true := by simpa using h
        exact ⟨text, u, rest, rfl, htext, matches_importUrl_iff.1 hu, (hconditions _).1 haccepts⟩
    · rintro ⟨_, u, r, ⟨⟩, htext, hu, hr⟩
      have hrest := (restAfter?_eq_some_iff hdelimited).2 ⟨u, htext, matches_importUrl_iff.2 hu⟩
      simp [importIssue?, hrest, (hconditions _).2 hr]

theorem charsetIssue?_eq_none_iff : charsetIssue? value = none ↔ IsCharset value := by
  cases value with
  | none => simp [charsetIssue?, IsCharset]
  | some text => simp [charsetIssue?, IsCharset, accepts_iff_matches, matches_quoted_iff]

theorem layerIssue?_eq_none_iff {isBlock : Bool} :
    layerIssue? isBlock value = none ↔ IsLayer isBlock value := by
  cases value with
  | none => simp [layerIssue?, IsLayer]
  | some text =>
    have hnames : layerNames.accepts text.toList = true ↔ IsLayerNames text.toList :=
      (accepts_iff_matches _ _).trans matches_layerNames_iff
    have hlayer : IsLayer isBlock (some text) ↔ IsLayerNames text.toList := by simp [IsLayer]
    rw [hlayer, layerIssue?]
    constructor
    · intro h
      -- the commas are only looked at to report them, so what is passed was passed by the grammar
      rw [← hnames]
      grind
    · intro h
      simp [h.getLast?_ne, h.hasAdjacentCommas_eq_false, hnames.2 h]

/-- Of an at-rule with a known name that has a grammar, only the prelude can be wrong. -/
theorem atRuleIssue?_of_mem {k : Knowledge} {name : String} (value : Option String) (isBlock : Bool)
    (hname : lower name ∈ ["import", "charset", "layer"]) (hknown : k.hasAtRule name = true) :
    (atRuleIssue? k name value isBlock = none ↔ Follows (lower name) isBlock value) ∧
      ∀ issue, atRuleIssue? k name value isBlock = some issue →
        issue.key = .invalidAtRuleValue := by
  have hne : name ≠ "" := by
    rintro rfl
    revert hname
    decide
  simp only [List.mem_cons, List.not_mem_nil, or_false] at hname
  rcases hname with h | h | h
  · have hissue : atRuleIssue? k name value isBlock = importIssue? value := by
      simp [atRuleIssue?, hne, hknown, h]
    rw [hissue, importIssue?_eq_none_iff]
    exact ⟨by simp [Follows, h], fun _ => key_of_importIssue?⟩
  · have hissue : atRuleIssue? k name value isBlock = charsetIssue? value := by
      simp [atRuleIssue?, hne, hknown, h]
    rw [hissue, charsetIssue?_eq_none_iff]
    exact ⟨by simp [Follows, h], fun _ => key_of_charsetIssue?⟩
  · have hissue : atRuleIssue? k name value isBlock = layerIssue? isBlock value := by
      simp [atRuleIssue?, hne, hknown, h]
    rw [hissue, layerIssue?_eq_none_iff]
    exact ⟨by simp [Follows, h], fun _ => key_of_layerIssue?⟩

end Check

/-- The prelude of an import, a character set rule or a layer rule is passed exactly when it follows
its grammar; else the one finding is that its value is invalid, and it spans the rule. An import can
be split into an address and what stands behind it in at most one way. -/
theorem Checker.atRule_preludes (k : Knowledge) (scope : Scope) (place : Placement) {name : String}
    (value : Option String) (isBlock : Bool)
    (hname : lower name ∈ ["import", "charset", "layer"]) (hknown : k.hasAtRule name = true) :
    let check := Checker.atRule.check k scope (.leaf place (.atRule name value isBlock))
    (check = .ok [] ↔ Prelude.Follows (lower name) isBlock value) ∧
    (¬ Prelude.Follows (lower name) isBlock value → ∃ f : Finding, check = .ok [f] ∧
      f.key = .invalidAtRuleValue ∧ f.start = place.start ∧
      (place.start < place.stop → f.stop = place.stop)) ∧
    ∀ u r v t : List Char, Prelude.IsAddress u → Prelude.IsAddress v → u ++ r = v ++ t →
      u = v ∧ r = t := by
  intro check
  have hcheck : check = .ok (Check.atRule k place name value isBlock) := rfl
  obtain ⟨hnone, hkey⟩ := Check.atRuleIssue?_of_mem value isBlock hname hknown
  have hempty : check = .ok [] ↔ Prelude.Follows (lower name) isBlock value := by
    rw [hcheck, ← hnone, Except.ok.injEq, Check.atRule]
    simp
  refine ⟨hempty, fun hnot => ?_, fun u r v t => @Prelude.delimited_isAddress u v r t⟩
  rw [← hnone] at hnot
  obtain ⟨issue, hissue⟩ := Option.ne_none_iff_exists'.1 hnot
  refine ⟨.spanning issue place.start place.stop, ?_, hkey issue hissue, rfl, fun hlt => ?_⟩
  · rw [hcheck, Check.atRule, hissue]
    rfl
  · exact Position.widen_of_lt hlt

/-- An import with conditions of every kind follows its grammar, whatever the case of its name. -/
theorem Checker.atRule_preludes_import :
    lower "IMPORT" ∈ ["import", "charset", "layer"] ∧
      Knowledge.builtIn.hasAtRule "IMPORT" = true ∧
      Prelude.Follows "import" false
        (some "url( a ) layer supports((b)) not print and (c), (d) or (e)") := by
  have hname : lower "IMPORT" ∈ ["import", "charset", "layer"] := by decide
  have hknown : Knowledge.builtIn.hasAtRule "IMPORT" = true := by decide +kernel
  have hchecked := Checker.atRule_preludes Knowledge.builtIn .topLevel
    { id := 0, start := ⟨1, 1⟩, stop := ⟨1, 67⟩ }
    (some "url( a ) layer supports((b)) not print and (c), (d) or (e)") false hname hknown
  exact ⟨hname, hknown, hchecked.1.1 (by decide +kernel)⟩

end Stylesheet
