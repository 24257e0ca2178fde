import Mathlib.Data.List.GetD
import Stylesheet.Proofs.Brackets
import Stylesheet.Proofs.Breaks.Text

set_option autoImplicit false

/-! # What counts as quoted

The number of open parentheses, the search for an address and the masking of strings all leave out
what is quoted. `QuotesBy` says what each of them does, given which texts end inside a string. All
three pair up quotes and pay no attention to backslashes (`insidePairs`). This is the notion of
`insideString` as long as no quote is escaped (`quotesBy_insideString`), and another one where a
quote is (`not_quotesBy_escaped`). -/

namespace Stylesheet.Text

/-! ## Leaving out what is quoted -/

/-- The characters of `cs` that are not quoted, where `before` stands in front of it. A character is
quoted when the text in front of it ends inside a string. -/
def unquoted (inString : List Char → Bool) (before : List Char) : List Char → List Char
  | [] => []
  | c :: cs =>
    if inString before then unquoted inString (before ++ [c]) cs
    else c :: unquoted inString (before ++ [c]) cs

/-- The text with a space for every ASCII character that is quoted and does not end its string. -/
def masked (inString : List Char → Bool) (t : List Char) : List Char :=
  t.mapIdx fun i c =>
    if inString (t.take i) && inString (t.take (i + 1)) && isAscii c then ' ' else c

/-- The parenthesis after `before` is open at the end of the text and has `inside` open ones in it:
it is not quoted, and of those after it that are not quoted, so many are left when the others have
closed each other. -/
def OpenParen (inString : List Char → Bool) (t : List Char) (inside : Nat) (before : List Char) :
    Prop :=
  ∃ inner, t = before ++ '(' :: inner ∧ inString before = false ∧
    Rises '(' ')' inside (unquoted inString (before ++ ['(']) inner)

/-- The text ends in `url`, in any letter case. -/
def EndsInUrl (before : List Char) : Prop :=
  ∃ name, name <:+ before ∧ sameIgnoringCase name ['u', 'r', 'l'] = true

/-- Parentheses, addresses and masks leave out what stands in a string, where `inString` says which
texts end inside one. -/
structure QuotesBy (inString : List Char → Bool) (t : List Char) : Prop where
  openParens_eq : openParens t = nestingDepth '(' ')' (unquoted inString [] t)
  insideUrl_iff : insideUrl t = true ↔ ∃ before, OpenParen inString t 0 before ∧ EndsInUrl before
  maskQuoted_eq : maskQuoted t = masked inString t

section Unquoted

variable {inString inString' : List Char → Bool} {t : List Char}

theorem unquoted_append (before cs ds : List Char) :
    unquoted inString before (cs ++ ds) =
      unquoted inString before cs ++ unquoted inString (before ++ cs) ds := by
  induction cs generalizing before with
  | nil => simp [unquoted]
  | cons c cs ih =>
    rw [List.cons_append, unquoted, unquoted, ih]
    split <;> simp

theorem unquoted_concat (before cs : List Char) (c : Char) :
    unquoted inString before (cs ++ [c]) = unquoted inString before cs ++
      if inString (before ++ cs) then [] else [c] := by
  rw [unquoted_append]
  simp only [unquoted]

/-- Only the beginnings of a text decide what is quoted in it. -/
theorem unquoted_congr {before cs : List Char}
    (h : ∀ front, front <+: before ++ cs → inString front = inString' front) :
    unquoted inString before cs = unquoted inString' before cs := by
  induction cs generalizing before with
  | nil => rfl
  | cons c cs ih =>
    have hrest : ∀ front, front <+: (before ++ [c]) ++ cs → inString front = inString' front := by
      simpa using h
    rw [unquoted, unquoted, h before (List.prefix_append _ _), ih hrest]

theorem masked_congr (h : ∀ front, front <+: t → inString front = inString' front) :
    masked inString t = masked inString' t := by
  simp only [masked, h _ (List.take_prefix _ _)]

theorem OpenParen.congr {inside : Nat} {before : List Char}
    (hp : OpenParen inString t inside before)
    (h : ∀ front, front <+: t → inString front = inString' front) :
    OpenParen inString' t inside before := by
  obtain ⟨inner, rfl, hbefore, hrises⟩ := hp
  refine ⟨inner, rfl, by rw [← h before (List.prefix_append _ _), hbefore], ?_⟩
  rwa [← unquoted_congr (by simpa using h)]

/-- Two notions of a string that agree on the beginnings of a text agree on what is quoted in it. -/
theorem QuotesBy.congr (hq : QuotesBy inString t)
    (h : ∀ front, front <+: t → inString front = inString' front) : QuotesBy inString' t where
  openParens_eq := by
    rw [hq.openParens_eq, unquoted_congr (by simpa using h)]
  insideUrl_iff := by
    rw [hq.insideUrl_iff]
    constructor
    · rintro ⟨before, hp, hurl⟩
      exact ⟨before, hp.congr h, hurl⟩
    · rintro ⟨before, hp, hurl⟩
      exact ⟨before, hp.congr fun front hfront => (h front hfront).symm, hurl⟩
  maskQuoted_eq := by
    rw [hq.maskQuoted_eq, masked_congr h]

end Unquoted

/-! ## Pairs of quotes -/

/-- The end of the text lies after an odd quote, counted without regard to backslashes. -/
def insidePairs (t : List Char) : Bool := (t.foldl nextQuote none).isSome

theorem quote_foldl_nesting (t : List Char) :
    (t.foldl Nesting.next {}).quote = t.foldl nextQuote none := by
  induction t using List.reverseRecOn with
  | nil => rfl
  | append_singleton t c ih => simp [Nesting.next, ih]

theorem quote_foldl_addressing (t : List Char) :
    (t.foldl Addressing.next {}).quote = t.foldl nextQuote none := by
  induction t using List.reverseRecOn with
  | nil => rfl
  | append_singleton t c ih => simp [Addressing.next, ih]

theorem openParens_eq_nestingDepth (t : List Char) :
    openParens t = nestingDepth '(' ')' (unquoted insidePairs [] t) := by
  induction t using List.reverseRecOn with
  | nil => rfl
  | append_singleton t c ih =>
    rw [unquoted_concat, List.nil_append, openParens, List.foldl_append, List.foldl_cons,
      List.foldl_nil, Nesting.next, quote_foldl_nesting]
    simp only [openParens] at ih
    by_cases hq : insidePairs t = true
    · rw [if_pos hq, if_pos (by exact hq), ih, List.append_nil]
    · rw [if_neg hq, if_neg (by exact hq), ih, nestingDepth_concat, nest]

theorem maskFrom_eq_mapIdx (front t : List Char) :
    maskFrom (front.foldl nextQuote none) t =
      t.mapIdx fun i c =>
        if insidePairs (front ++ t.take i) && insidePairs (front ++ t.take (i + 1)) && isAscii c
        then ' ' else c := by
  induction t generalizing front with
  | nil => rfl
  | cons c t ih =>
    have hrest := ih (front ++ [c])
    simp only [List.foldl_append, List.foldl_cons, List.foldl_nil, List.append_assoc,
      List.singleton_append] at hrest
    -- the character ends the string just when it is the quote that began it
    have hends :
        ((front.foldl nextQuote none).isSome && front.foldl nextQuote none != some c) =
          (insidePairs front && insidePairs (front ++ [c])) := by
      simp only [insidePairs, List.foldl_append, List.foldl_cons, List.foldl_nil]
      cases front.foldl nextQuote none with
      | none => rfl
      | some quote => by_cases hc : c = quote <;> simp [nextQuote, hc, Ne.symm]
    rw [maskFrom, hrest, List.mapIdx_cons, hends]
    simp

/-! ## Addresses -/

section Paren

variable {inString : List Char → Bool} {t before : List Char} {inside : Nat} {c : Char}

/-- One more character is itself the open parenthesis or stands after it. -/
theorem openParen_concat_iff :
    OpenParen inString (t ++ [c]) inside before ↔
      (inside = 0 ∧ c = '(' ∧ inString t = false ∧ before = t) ∨
        ∃ inner, t = before ++ '(' :: inner ∧ inString before = false ∧
          Rises '(' ')' inside
            (unquoted inString (before ++ ['(']) inner ++ if inString t then [] else [c]) := by
  constructor
  · rintro ⟨inner, hsplit, hbefore, hrises⟩
    rcases List.eq_nil_or_concat inner with rfl | ⟨inner, last, rfl⟩
    · obtain ⟨rfl, hc⟩ := List.append_inj' hsplit rfl
      refine Or.inl ⟨?_, (List.cons.inj hc).1, hbefore, rfl⟩
      simpa [unquoted] using hrises.count_eq.symm
    · rw [List.concat_eq_append, ← List.cons_append, ← List.append_assoc] at hsplit
      obtain ⟨rfl, hc⟩ := List.append_inj' hsplit rfl
      obtain rfl := (List.cons.inj hc).1
      refine Or.inr ⟨inner, rfl, hbefore, ?_⟩
      rw [List.concat_eq_append, unquoted_concat] at hrises
      simpa using hrises
  · rintro (⟨rfl, rfl, ht, rfl⟩ | ⟨inner, rfl, hbefore, hrises⟩)
    · exact ⟨[], rfl, ht, rises_nil⟩
    · refine ⟨inner ++ [c], by simp, hbefore, ?_⟩
      rw [unquoted_concat]
      simpa using hrises

theorem openParen_concat_of_inString (h : inString t = true) :
    OpenParen inString (t ++ [c]) inside before ↔ OpenParen inString t inside before := by
  rw [openParen_concat_iff]
  simp [h, OpenParen]

theorem openParen_concat_of_ne (hopening : c ≠ '(') (hclosing : c ≠ ')') :
    OpenParen inString (t ++ [c]) inside before ↔ OpenParen inString t inside before := by
  cases h : inString t with
  | true => exact openParen_concat_of_inString h
  | false =>
    rw [openParen_concat_iff]
    simp [h, OpenParen, hopening, rises_concat_of_ne hopening hclosing]

theorem paren_ne : '(' ≠ ')' := by decide

theorem openParen_concat_opening_zero (h : inString t = false) :
    OpenParen inString (t ++ ['(']) 0 before ↔ before = t := by
  rw [openParen_concat_iff]
  simp [h, not_rises_concat_opening paren_ne]

theorem openParen_concat_opening_succ (h : inString t = false) :
    OpenParen inString (t ++ ['(']) (inside + 1) before ↔ OpenParen inString t inside before := by
  rw [openParen_concat_iff]
  simp [h, OpenParen, rises_concat_opening paren_ne]

theorem openParen_concat_closing (h : inString t = false) :
    OpenParen inString (t ++ [')']) inside before ↔
      OpenParen inString t (inside + 1) before := by
  rw [openParen_concat_iff]
  simp [h, OpenParen, rises_concat_closing paren_ne]

end Paren

/-- The open parentheses that the search for an address keeps are those that are open, innermost
first, each with what stands in front of it. -/
theorem parens_getElem?_iff (t : List Char) (inside : Nat) (isUrl : Bool) :
    (t.foldl Addressing.next {}).parens[inside]? = some isUrl ↔
      ∃ before, OpenParen insidePairs t inside before ∧ endsInUrl before.reverse = isUrl := by
  induction t using List.reverseRecOn generalizing inside with
  | nil => simp [OpenParen]
  | append_singleton t c ih =>
    rw [List.foldl_append, List.foldl_cons, List.foldl_nil, Addressing.next, quote_foldl_addressing,
      before_foldl_next]
    by_cases hq : insidePairs t = true
    · rw [if_pos (by exact hq), ih]
      simp only [openParen_concat_of_inString hq]
    · rw [if_neg (by exact hq)]
      rw [Bool.not_eq_true] at hq
      split
      · next hc =>
        subst hc
        cases inside with
        | zero => simp [openParen_concat_opening_zero hq]
        | succ inside =>
          rw [List.getElem?_cons_succ, ih]
          simp only [openParen_concat_opening_succ hq]
      · next hopening =>
        split
        · next hc =>
          subst hc
          rw [List.getElem?_tail, ih]
          simp only [openParen_concat_closing hq]
        · next hclosing =>
          rw [ih]
          simp only [openParen_concat_of_ne hopening hclosing]

theorem endsInUrl_reverse_iff (before : List Char) :
    endsInUrl before.reverse = true ↔ EndsInUrl before := by
  have htake (name : List Char) : (sameIgnoringCase name.reverse ['l', 'r', 'u'] = true) ↔
      sameIgnoringCase name ['u', 'r', 'l'] = true := by
    rw [sameIgnoringCase, sameIgnoringCase, beq_iff_eq, beq_iff_eq, List.map_reverse,
      List.reverse_eq_iff]
    rfl
  constructor
  · intro h
    refine ⟨(before.reverse.take 3).reverse, ?_, ?_⟩
    · have hprefix := List.take_prefix 3 before.reverse
      rwa [← List.reverse_suffix, List.reverse_reverse] at hprefix
    · rw [← htake, List.reverse_reverse]
      exact h
  · rintro ⟨name, ⟨front, rfl⟩, hname⟩
    have hlength : name.length = 3 := by
      have := congrArg List.length (beq_iff_eq.1 hname)
      simpa using this
    rw [endsInUrl, List.reverse_append, List.take_append_of_le_length (by simp [hlength]),
      List.take_of_length_le (by simp [hlength]), htake]
    exact hname

theorem insideUrl_iff_openParen (t : List Char) :
    insideUrl t = true ↔ ∃ before, OpenParen insidePairs t 0 before ∧ EndsInUrl before := by
  have hhead : insideUrl t = true ↔ (t.foldl Addressing.next {}).parens[0]? = some true := by
    rw [insideUrl, ← List.head?_eq_getElem?]
    cases (t.foldl Addressing.next {}).parens.head? <;> simp
  rw [hhead, parens_getElem?_iff]
  simp only [endsInUrl_reverse_iff]

/-- Parentheses, addresses and masks leave out what stands between paired quotes. -/
theorem quotesBy_insidePairs (t : List Char) : QuotesBy insidePairs t where
  openParens_eq := openParens_eq_nestingDepth t
  insideUrl_iff := insideUrl_iff_openParen t
  maskQuoted_eq := maskFrom_eq_mapIdx [] t

/-! ## Escaped quotes -/

/-- No quote of the text is escaped by a backslash. -/
def NoEscapedQuote (t : List Char) : Prop :=
  ∀ before quote after, t = before ++ quote :: after → isQuote quote = true →
    (before.foldl Quoting.next {}).escape = false

theorem NoEscapedQuote.of_isPrefix {front t : List Char} (h : NoEscapedQuote t)
    (hfront : front <+: t) : NoEscapedQuote front := by
  obtain ⟨rest, rfl⟩ := hfront
  rintro before quote after rfl
  exact h before quote (after ++ rest) (by simp)

/-- A character that is not an escaped quote opens and ends the same strings either way. -/
theorem Quoting.opened_next {q : Quoting} {c : Char}
    (hquotes : ∀ quote ∈ q.opened, isQuote quote = true)
    (hescape : q.escape = true → isQuote c = false) : (q.next c).opened = nextQuote q.opened c := by
  unfold Quoting.next
  split
  · next h => rw [nextQuote_eq_self hquotes (hescape h)]
  · split
    · next hc => rw [nextQuote_eq_self hquotes (by rw [hc]; decide)]
    · cases ho : q.opened with
      | none => by_cases hc : isQuote c = true <;> simp [nextQuote, hc, ho]
      | some quote => by_cases hc : c = quote <;> simp [nextQuote, hc, ho]

/-- Without escaped quotes, strings are what stands between paired quotes. -/
theorem NoEscapedQuote.opened_eq {t : List Char} (h : NoEscapedQuote t) :
    (t.foldl Quoting.next {}).opened = t.foldl nextQuote none ∧
      ∀ quote ∈ (t.foldl Quoting.next {}).opened, isQuote quote = true := by
  induction t using List.reverseRecOn with
  | nil => simp
  | append_singleton t c ih =>
    obtain ⟨hopened, hquotes⟩ := ih (h.of_isPrefix (List.prefix_append t [c]))
    have hescape : (t.foldl Quoting.next {}).escape = true → isQuote c = false := by
      intro hescape
      by_contra hc
      simp [h t c [] rfl (by simpa using hc)] at hescape
    have hnext := Quoting.opened_next hquotes hescape
    simp only [List.foldl_append, List.foldl_cons, List.foldl_nil, hnext]
    exact ⟨by rw [hopened], isQuote_nextQuote hquotes c⟩

theorem NoEscapedQuote.insidePairs_eq {t : List Char} (h : NoEscapedQuote t) :
    insidePairs t = insideString t := by
  rw [insidePairs, insideString, h.opened_eq.1]

/-- Parentheses, addresses and masks leave out the strings of `insideString` in every text without
an escaped quote, and what stands between paired quotes in every text. -/
theorem quotesBy_insideString (t : List Char) :
    QuotesBy insidePairs t ∧ (NoEscapedQuote t → QuotesBy insideString t) := by
  refine ⟨quotesBy_insidePairs t, ?_⟩
  intro h
  exact (quotesBy_insidePairs t).congr fun front hfront => (h.of_isPrefix hfront).insidePairs_eq

/-- An escape that is no quote, and a parenthesis in a string that is inside an address. -/
theorem quotesBy_insideString_escape :
    NoEscapedQuote "url(\\61\"(".toList ∧ QuotesBy insideString "url(\\61\"(".toList := by
  have hall : ∀ n ∈ List.range 9, isQuote ("url(\\61\"(".toList.getD n ' ') = true →
      (("url(\\61\"(".toList.take n).foldl Quoting.next {}).escape = false := by decide
  have h : NoEscapedQuote "url(\\61\"(".toList := by
    intro before quote after hsplit hquote
    have hlength : before.length < 9 := by
      have := congrArg List.length hsplit
      simp at this
      omega
    have hbefore := hall before.length (List.mem_range.2 hlength)
    rw [hsplit, List.take_left, List.getD_append_right _ _ _ _ (le_refl _)] at hbefore
    exact hbefore (by simpa using hquote)
  exact ⟨h, (quotesBy_insideString _).2 h⟩

/-- A parenthesis in a string, after an escaped quote, is counted as open, taken for that of an
address and not masked. -/
theorem not_quotesBy_escaped :
    let t := "\"\\\"url(".toList
    (∀ n ∈ List.range' 1 6, insideString (t.take n) = true) ∧
    openParens t ≠ nestingDepth '(' ')' (unquoted insideString [] t) ∧
    ¬ (insideUrl t = true ↔ ∃ before, OpenParen insideString t 0 before ∧ EndsInUrl before) ∧
    maskQuoted t ≠ masked insideString t := by
  intro t
  refine ⟨by decide, by decide, ?_, by decide⟩
  intro h
  obtain ⟨before, ⟨inner, hsplit, hbefore, -⟩, -⟩ := h.1 (by decide)
  have hmem : '(' ∈ unquoted insideString [] t := by
    rw [hsplit, unquoted_append, List.nil_append, unquoted, if_neg (by simp [hbefore])]
    simp
  exact absurd hmem (by decide)

end Stylesheet.Text
