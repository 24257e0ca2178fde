import Mathlib.Data.List.TakeWhile
import Stylesheet.Proofs.Printing
import Stylesheet.Scan.Payload

set_option autoImplicit false

/-! # What is read from printed text

Text without quotes ends inside no string, text without parentheses leaves their number alone, and
trimming finds a text between blanks. It follows that the names and values of printed at-rules and
declarations are read back from their text. -/

namespace Stylesheet

namespace Text

/-! ## Strings and parentheses -/

theorem opened_foldl_next {cs : List Char} (h : ∀ c ∈ cs, isQuote c = false) (q : Quoting)
    (hq : q.opened = none) : (cs.foldl Quoting.next q).opened = none := by
  induction cs generalizing q with
  | nil => exact hq
  | cons c cs ih =>
    refine ih (fun d hd => h d (List.mem_cons_of_mem _ hd)) (q.next c) ?_
    have hc := h c (List.mem_cons_self ..)
    unfold Quoting.next
    split
    · exact hq
    · split
      · exact hq
      · simp [hq, hc]

/-- Text without quotes does not end inside a string. -/
theorem insideString_of_isQuote {cs : List Char} (h : ∀ c ∈ cs, isQuote c = false) :
    insideString cs = false := by
  simp [insideString, opened_foldl_next h {} rfl]

theorem quote_foldl_next {cs : List Char} (h : ∀ c ∈ cs, isQuote c = false) (n : Nesting)
    (hn : n.quote = none) : (cs.foldl Nesting.next n).quote = none := by
  induction cs generalizing n with
  | nil => exact hn
  | cons c cs ih =>
    refine ih (fun d hd => h d (List.mem_cons_of_mem _ hd)) (n.next c) ?_
    simp [Nesting.next, nextQuote, hn, h c (List.mem_cons_self ..)]

/-- Text without quotes and parentheses leaves the nesting alone. -/
theorem foldl_next_eq_self {cs : List Char}
    (h : ∀ c ∈ cs, isQuote c = false ∧ c ≠ '(' ∧ c ≠ ')') {n : Nesting} (hn : n.quote = none) :
    cs.foldl Nesting.next n = n := by
  induction cs with
  | nil => rfl
  | cons c cs ih =>
    obtain ⟨hquote, hopen, hclose⟩ := h c (List.mem_cons_self ..)
    have hnext : n.next c = n := by
      cases n
      simp only at hn
      simp [Nesting.next, nextQuote, hn, hquote, hopen, hclose]
    rw [List.foldl_cons, hnext]
    exact ih fun d hd => h d (List.mem_cons_of_mem _ hd)

/-- Only the text between parts without quotes and parentheses counts. -/
theorem openParens_between (front cs back : List Char)
    (hfront : ∀ c ∈ front, isQuote c = false ∧ c ≠ '(' ∧ c ≠ ')')
    (hcs : ∀ c ∈ cs, isQuote c = false)
    (hback : ∀ c ∈ back, isQuote c = false ∧ c ≠ '(' ∧ c ≠ ')') :
    openParens (front ++ cs ++ back) = openParens cs := by
  unfold openParens
  rw [List.foldl_append, List.foldl_append, foldl_next_eq_self hfront rfl,
    foldl_next_eq_self hback (quote_foldl_next hcs {} rfl)]

/-! ## Trimming -/

/-- The text begins and ends with characters that are not blank. -/
structure IsBare (cs : List Char) : Prop where
  first : ∃ c rest, cs = c :: rest ∧ isBlank c = false
  last : ∃ front c, cs = front ++ [c] ∧ isBlank c = false

theorem IsBare.trimStart {cs : List Char} (h : IsBare cs) (after : List Char) :
    trimStart (cs ++ after) = cs ++ after := by
  obtain ⟨c, rest, rfl, hc⟩ := h.first
  simp [Text.trimStart, hc]

theorem IsBare.trimEnd {cs : List Char} (h : IsBare cs) : trimEnd cs = cs := by
  obtain ⟨front, c, rfl, hc⟩ := h.last
  simp [Text.trimEnd, hc]

/-- Trimming finds the text between blanks. -/
theorem IsBare.trim {cs : List Char} (h : IsBare cs) (before after : List Char)
    (hbefore : allBlank before = true) (hafter : allBlank after = true) :
    trim (before ++ cs ++ after) = cs := by
  have hstart : Text.trimStart (before ++ cs ++ after) = cs ++ after := by
    rw [List.append_assoc, Text.trimStart,
      List.dropWhile_append_of_pos (by simpa [allBlank] using hbefore)]
    exact h.trimStart after
  have hend : Text.trimEnd (cs ++ after) = Text.trimEnd cs := by
    unfold Text.trimEnd
    rw [List.reverse_append, List.dropWhile_append_of_pos (by simpa [allBlank] using hafter)]
  rw [Text.trim, hstart, hend, h.trimEnd]

theorem IsBare.trimmed? {cs : List Char} (h : IsBare cs) (before after : List Char)
    (hbefore : allBlank before = true) (hafter : allBlank after = true) :
    trimmed? (before ++ cs ++ after) = some (String.ofList cs) := by
  obtain ⟨c, rest, hcs, -⟩ := h.first
  unfold Text.trimmed?
  rw [h.trim before after hbefore hafter]
  simp [hcs]

/-- Text that ends in a visible character is not blank. -/
theorem allBlank_concat (cs : List Char) {c : Char} (hc : isBlank c = false) :
    allBlank (cs ++ [c]) = false := by
  simp [allBlank, hc]

theorem length_trimEnd_le (cs : List Char) : (trimEnd cs).length ≤ cs.length := by
  have h := (List.dropWhile_suffix (l := cs.reverse) isBlank).length_le
  simpa [trimEnd] using h

/-- A trimmed text is bare, unless it is empty. -/
theorem isBare_of_isTrimmed {text : String} (hne : text ≠ "") (h : IsTrimmed text) :
    IsBare text.toList := by
  have hne' : text.toList ≠ [] := by simpa using hne
  unfold IsTrimmed at h
  generalize text.toList = cs at h hne'
  have hsuffix : Text.trimStart cs <:+ cs := List.dropWhile_suffix _
  have hstart : Text.trimStart cs = cs := by
    refine hsuffix.eq_of_length (le_antisymm hsuffix.length_le ?_)
    have hle := length_trimEnd_le (Text.trimStart cs)
    rwa [← Text.trim, h] at hle
  have hend : Text.trimEnd cs = cs := by
    rw [Text.trim, hstart] at h
    exact h
  have hblank : ∀ ds : List Char, ds ≠ [] → Text.trimStart ds = ds →
      ∃ c rest, ds = c :: rest ∧ isBlank c = false := by
    intro ds hds hself
    obtain ⟨c, rest, rfl⟩ := List.exists_cons_of_ne_nil hds
    have hc := List.dropWhile_eq_self_iff.1 hself (by simp)
    exact ⟨c, rest, rfl, by simpa using hc⟩
  refine ⟨hblank cs hne' hstart, ?_⟩
  -- the last character is the first of the reversed text
  have hreverse : Text.trimStart cs.reverse = cs.reverse := by
    have := congrArg List.reverse hend
    simpa [Text.trimEnd, Text.trimStart] using this
  obtain ⟨c, rest, hrest, hc⟩ := hblank cs.reverse (by simpa using hne') hreverse
  refine ⟨rest.reverse, c, ?_, hc⟩
  have := congrArg List.reverse hrest
  simpa using this

/-! ## Characters of names and values -/

theorem ne_of_class {p : Char → Bool} {c d : Char} (hc : p c = true) (hd : p d = false) :
    c ≠ d := by
  rintro rfl
  simp [hc] at hd

theorem isBlank_of_isNameChar {c : Char} (h : isNameChar c = true) : isBlank c = false := by
  simp only [isNameChar, isAsciiLetter, isAsciiDigit, Bool.or_eq_true, Bool.and_eq_true,
    decide_eq_true_eq, beq_iff_eq] at h
  have hn : 0x2D ≤ c.toNat ∧ c.toNat < 0x80 := by
    rcases h with ((h | h) | rfl) | rfl
    · omega
    · omega
    · decide
    · decide
  simp only [isBlank, Bool.or_eq_false_iff, beq_eq_false_iff_ne, Bool.and_eq_false_iff,
    decide_eq_false_iff_not]
  omega

theorem isAtRuleNameChar_of_isNameChar {c : Char} (h : isNameChar c = true) :
    Payload.isAtRuleNameChar c = true := by
  simp only [isNameChar, Bool.or_eq_true, beq_iff_eq] at h
  rcases h with ((h | h) | rfl) | rfl
  · have hascii : isAscii c = true := by
      simp only [isAsciiLetter, Bool.or_eq_true, Bool.and_eq_true, decide_eq_true_eq] at h
      simp only [isAscii, decide_eq_true_eq]
      omega
    simp [Payload.isAtRuleNameChar, isAlphanumeric, hascii, h]
  · have hascii : isAscii c = true := by
      simp only [isAsciiDigit, Bool.and_eq_true, decide_eq_true_eq] at h
      simp only [isAscii, decide_eq_true_eq]
      omega
    simp [Payload.isAtRuleNameChar, isAlphanumeric, hascii, h]
  · decide
  · decide

/-- Names have neither quotes nor parentheses. -/
theorem isQuote_of_isNameChar {c : Char} (h : isNameChar c = true) :
    isQuote c = false ∧ c ≠ '(' ∧ c ≠ ')' := by
  refine ⟨?_, ne_of_class h (by decide), ne_of_class h (by decide)⟩
  have h₁ : c ≠ '"' := ne_of_class h (by decide)
  have h₂ : c ≠ '\'' := ne_of_class h (by decide)
  simp [isQuote, h₁, h₂]

namespace IsPlainValue

variable {value : String} (h : IsPlainValue value)

include h

theorem isBare : IsBare value.toList := isBare_of_isTrimmed h.nonempty h.trimmed

theorem isQuote {c : Char} (hc : c ∈ value.toList) : isQuote c = false := by
  obtain ⟨-, -, -, h₁, h₂⟩ := h.chars c hc
  simp [Text.isQuote, h₁, h₂]

/-- A value ends neither a declaration nor an at-rule, with or without the space before it. -/
theorem ne_end {c : Char} (hc : c ∈ ' ' :: value.toList) : c ≠ ';' ∧ c ≠ '{' ∧ c ≠ '}' := by
  rcases List.mem_cons.1 hc with rfl | hc
  · decide
  · obtain ⟨hsemicolon, hopen, hclose, -, -⟩ := h.chars c hc
    exact ⟨hsemicolon, hopen, hclose⟩

end IsPlainValue

theorem IsName.ne_end {name : String} (h : IsName name) {c : Char} (hc : c ∈ name.toList) :
    c ≠ ';' ∧ c ≠ '{' ∧ c ≠ '}' := by
  have hne (d : Char) (hd : isNameChar d = false) : c ≠ d := ne_of_class (h.chars c hc) hd
  exact ⟨hne ';' (by decide), hne '{' (by decide), hne '}' (by decide)⟩

theorem IsName.toList_ne_nil {name : String} (h : IsName name) : name.toList ≠ [] := by
  simpa using h.nonempty

end Text

/-! ## At-rules and declarations -/

namespace Printing

open Text

variable {name : String} {value : Option String}

theorem isBare_atHeader (hname : IsName name) (hvalue : ∀ v, value = some v → IsPlainValue v) :
    IsBare (atHeader name value) := by
  have hat : isBlank '@' = false := by decide
  cases value with
  | none =>
    refine ⟨⟨'@', name.toList, rfl, hat⟩, ?_⟩
    rcases List.eq_nil_or_concat name.toList with hnil | ⟨front, c, hname'⟩
    · exact absurd hnil hname.toList_ne_nil
    · refine ⟨'@' :: front, c, by simp [atHeader, hname'], ?_⟩
      exact isBlank_of_isNameChar (hname.chars c (by simp [hname']))
  | some value =>
    refine ⟨⟨'@', name.toList ++ ' ' :: value.toList, by simp [atHeader], hat⟩, ?_⟩
    obtain ⟨front, c, hvalue', hc⟩ := (hvalue value rfl).isBare.last
    exact ⟨'@' :: name.toList ++ ' ' :: front, c, by simp [atHeader, hvalue'], hc⟩

/-- The name and the value of a printed at-rule are read back. -/
theorem splitAtRule_atHeader (hname : IsName name)
    (hvalue : ∀ v, value = some v → IsPlainValue v) {after : List Char}
    (hafter : allBlank after = true) :
    Payload.splitAtRule (atHeader name value ++ after) = (name, value) := by
  have htrim : Text.trim (atHeader name value ++ after) = atHeader name value := by
    have h := (isBare_atHeader hname hvalue).trim [] after (by simp [allBlank]) hafter
    simpa using h
  have hchars : ∀ c ∈ name.toList, Payload.isAtRuleNameChar c = true :=
    fun c hc => isAtRuleNameChar_of_isNameChar (hname.chars c hc)
  have hspace : Payload.isAtRuleNameChar ' ' = false := by decide
  unfold Payload.splitAtRule
  rw [htrim]
  cases value with
  | none =>
    have htake : name.toList.takeWhile Payload.isAtRuleNameChar = name.toList :=
      List.takeWhile_eq_self_iff.2 hchars
    have hdrop : name.toList.dropWhile Payload.isAtRuleNameChar = [] :=
      List.dropWhile_eq_nil_iff.2 hchars
    simp [atHeader, htake, hdrop, trimmed?]
  | some value =>
    have hbare := (hvalue value rfl).isBare
    have hvalue' : trimmed? (' ' :: value.toList) = some value := by
      have h := hbare.trimmed? [' '] [] (by decide) (by simp [allBlank])
      simpa using h
    simp only [atHeader, List.cons_append]
    rw [List.takeWhile_append_of_pos hchars, List.dropWhile_append_of_pos hchars]
    simp [hspace, hvalue']

/-- The header of an at-rule has no open string. -/
theorem isQuote_atHeader (hname : IsName name) (hvalue : ∀ v, value = some v → IsPlainValue v)
    {c : Char} (hc : c ∈ atHeader name value) : isQuote c = false := by
  have hat : isQuote '@' = false := by decide
  have hspace : isQuote ' ' = false := by decide
  cases value with
  | none =>
    rcases List.mem_cons.1 hc with rfl | hc
    · exact hat
    · exact (isQuote_of_isNameChar (hname.chars c hc)).1
  | some value =>
    simp only [atHeader, List.cons_append, List.mem_cons, List.mem_append] at hc
    rcases hc with rfl | hc | rfl | hc
    · exact hat
    · exact (isQuote_of_isNameChar (hname.chars c hc)).1
    · exact hspace
    · exact (hvalue value rfl).isQuote hc

/-- The header of an at-rule has no open parentheses. -/
theorem openParens_atHeader (hname : IsName name)
    (hvalue : ∀ v, value = some v → IsPlainValue v) {after : List Char}
    (hafter : ∀ c ∈ after, c = ' ') : openParens (atHeader name value ++ after) = 0 := by
  have hat : isQuote '@' = false ∧ '@' ≠ '(' ∧ '@' ≠ ')' := by decide
  have hspace : isQuote ' ' = false ∧ ' ' ≠ '(' ∧ ' ' ≠ ')' := by decide
  have hfront : ∀ c ∈ '@' :: name.toList, isQuote c = false ∧ c ≠ '(' ∧ c ≠ ')' := by
    intro c hc
    rcases List.mem_cons.1 hc with rfl | hc
    · exact hat
    · exact isQuote_of_isNameChar (hname.chars c hc)
  have hback : ∀ c ∈ after, isQuote c = false ∧ c ≠ '(' ∧ c ≠ ')' := by
    intro c hc
    rw [hafter c hc]
    exact hspace
  cases value with
  | none =>
    have h := openParens_between ('@' :: name.toList) [] after hfront (by simp) hback
    rw [List.append_nil] at h
    exact h
  | some value =>
    have hfront' : ∀ c ∈ '@' :: name.toList ++ [' '],
        isQuote c = false ∧ c ≠ '(' ∧ c ≠ ')' := by
      intro c hc
      rcases List.mem_append.1 hc with hc | hc
      · exact hfront c hc
      · rw [List.mem_singleton.1 hc]
        exact hspace
    have h := openParens_between _ value.toList after hfront'
      (fun c hc => (hvalue value rfl).isQuote hc) hback
    rw [(hvalue value rfl).closed] at h
    simpa [atHeader] using h

/-- The name of a printed declaration is read back at its colon. -/
theorem declarationName?_eq (hname : IsName name) :
    Payload.declarationName? (name.toList ++ [':']) = some name := by
  have hcolon : isNameChar ':' = false := by decide
  have hstart : trimStart (name.toList ++ [':']) = name.toList ++ [':'] := by
    obtain ⟨c, rest, hname'⟩ := List.exists_cons_of_ne_nil hname.toList_ne_nil
    have hc := isBlank_of_isNameChar (hname.chars c (by simp [hname']))
    simp [trimStart, hname', hc]
  unfold Payload.declarationName?
  dsimp only
  rw [hstart, List.dropWhile_append_of_pos hname.chars, List.takeWhile_append_of_pos hname.chars]
  simp [hcolon, trimStart, show isBlank ':' = false by decide]

/-- The value of a printed declaration is read back. -/
theorem declarationValue?_eq (hname : IsName name) {value : String} (hvalue : IsPlainValue value) :
    Payload.declarationValue? (name.toList ++ [':', ' '] ++ value.toList) = some value := by
  have hdrop : (name.toList ++ [':', ' '] ++ value.toList).dropWhile (· != ':') =
      ':' :: ' ' :: value.toList := by
    rw [List.append_assoc, List.dropWhile_append_of_pos]
    · simp
    · intro c hc
      have : c ≠ ':' := ne_of_class (hname.chars c hc) (by decide)
      simpa using this
  have h := hvalue.isBare.trimmed? [' '] [] (by decide) (by simp [allBlank])
  rw [Payload.declarationValue?, hdrop]
  simpa using h

theorem isQuote_declaration (hname : IsName name) {value : String} (hvalue : IsPlainValue value)
    {c : Char} (hc : c ∈ name.toList ++ [':', ' '] ++ value.toList) : isQuote c = false := by
  simp only [List.mem_append, List.mem_cons, List.not_mem_nil, or_false] at hc
  rcases hc with (hc | rfl | rfl) | hc
  · exact (isQuote_of_isNameChar (hname.chars c hc)).1
  · decide
  · decide
  · exact hvalue.isQuote hc

theorem openParens_declaration (hname : IsName name) {value : String}
    (hvalue : IsPlainValue value) :
    openParens (name.toList ++ [':', ' '] ++ value.toList) = 0 := by
  have hfront : ∀ c ∈ name.toList ++ [':', ' '], isQuote c = false ∧ c ≠ '(' ∧ c ≠ ')' := by
    intro c hc
    simp only [List.mem_append, List.mem_cons, List.not_mem_nil, or_false] at hc
    rcases hc with hc | rfl | rfl
    · exact isQuote_of_isNameChar (hname.chars c hc)
    · decide
    · decide
  have h := openParens_between _ value.toList [] hfront (fun c hc => hvalue.isQuote hc) (by simp)
  rw [hvalue.closed, List.append_nil] at h
  exact h

end Printing

end Stylesheet
