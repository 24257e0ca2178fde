import Mathlib.Data.List.Basic
import Mathlib.Data.List.Induction
import Stylesheet.Proofs.Excerpt

set_option autoImplicit false

/-! # Line breaks written in two characters

`Text.crlf` writes every line feed of a text as a carriage return and a line feed, and `Text.lf`
takes that back (`Text.lf_crlf`). Both characters of such a pair are blank, so what the scanner asks
of a text has the same answer for both spellings, and the parts it takes from a text are spelled
like the text. -/

namespace Stylesheet

namespace Text

/-! ## The two spellings -/

/-- A character as written in a text with line breaks of two characters. -/
def crlfChar (c : Char) : List Char := if c = '\n' then ['\r', '\n'] else [c]

/-- The text with every line feed written as a carriage return and a line feed. -/
def crlf (cs : List Char) : List Char := cs.flatMap crlfChar

/-- The text with every carriage return and line feed replaced by a line feed. -/
def lf : List Char → List Char
  | [] => []
  | '\r' :: '\n' :: cs => '\n' :: lf cs
  | c :: cs => c :: lf cs

/-- The same for strings. -/
def withCrlf (text : String) : String := String.ofList (crlf text.toList)

/-- The same for strings. -/
def withLf (text : String) : String := String.ofList (lf text.toList)

@[simp] theorem crlf_nil : crlf [] = [] := rfl

@[simp] theorem crlf_append (cs ds : List Char) : crlf (cs ++ ds) = crlf cs ++ crlf ds :=
  List.flatMap_append

theorem crlf_cons (c : Char) (cs : List Char) : crlf (c :: cs) = crlfChar c ++ crlf cs :=
  List.flatMap_cons

theorem crlf_lineFeed (cs : List Char) : crlf ('\n' :: cs) = '\r' :: '\n' :: crlf cs := rfl

theorem crlf_cons_of_ne {c : Char} (hc : c ≠ '\n') (cs : List Char) :
    crlf (c :: cs) = c :: crlf cs := by
  simp [crlf_cons, crlfChar, hc]

/-- A text without line feeds is spelled in one way. -/
theorem crlf_eq_self {cs : List Char} (h : '\n' ∉ cs) : crlf cs = cs := by
  induction cs with
  | nil => rfl
  | cons c cs ih =>
    simp only [List.mem_cons, not_or] at h
    rw [crlf_cons_of_ne (Ne.symm h.1), ih h.2]

/-- Every line feed has its carriage return in front. -/
theorem crlf_ne_lineFeed_cons (cs ds : List Char) : crlf cs ≠ '\n' :: ds := by
  cases cs with
  | nil => simp
  | cons c cs =>
    by_cases hc : c = '\n'
    · simp [hc, crlf_lineFeed]
    · simp [crlf_cons_of_ne hc, hc]

/-- Replacing the pairs by line feeds gives the text back. -/
@[simp] theorem lf_crlf (cs : List Char) : lf (crlf cs) = cs := by
  induction cs with
  | nil => rfl
  | cons c cs ih =>
    by_cases hc : c = '\n'
    · rw [hc, crlf_lineFeed, lf, ih]
    · rw [crlf_cons_of_ne hc, lf, ih]
      exact fun ds _ hds => crlf_ne_lineFeed_cons cs ds hds

theorem length_lf_le (cs : List Char) : (lf cs).length ≤ cs.length := by
  fun_induction lf cs with
  | case1 => exact Nat.le_refl _
  | case2 cs ih =>
    simp only [List.length_cons]
    omega
  | case3 c cs hpair ih =>
    simp only [List.length_cons]
    omega

theorem crlf_injective {cs ds : List Char} (h : crlf cs = crlf ds) : cs = ds := by
  rw [← lf_crlf cs, h, lf_crlf]

@[simp] theorem crlf_eq_nil_iff {cs : List Char} : crlf cs = [] ↔ cs = [] :=
  ⟨fun h => crlf_injective (h.trans crlf_nil.symm), fun h => by rw [h, crlf_nil]⟩

theorem mem_crlf_iff {c : Char} (hc : c ≠ '\r') {cs : List Char} : c ∈ crlf cs ↔ c ∈ cs := by
  simp only [crlf, List.mem_flatMap, crlfChar]
  constructor
  · rintro ⟨d, hd, hcd⟩
    split at hcd
    · next h => simp_all
    · simp_all
  · intro h
    refine ⟨c, h, ?_⟩
    split <;> simp_all

theorem crlf_concat_of_ne (cs : List Char) {c : Char} (hc : c ≠ '\n') :
    crlf (cs ++ [c]) = crlf cs ++ [c] := by
  rw [crlf_append, crlf_cons_of_ne hc, crlf_nil]

theorem crlf_concat_lineFeed (cs : List Char) :
    crlf (cs ++ ['\n']) = crlf cs ++ ['\r'] ++ ['\n'] := by
  rw [crlf_append, crlf_lineFeed, crlf_nil, List.append_cons]

/-- The same texts without line feeds end the text in both spellings. -/
theorem suffix_crlf_iff {cs ds : List Char} (h : '\n' ∉ ds) : ds <:+ crlf cs ↔ ds <:+ cs := by
  induction ds using List.reverseRecOn generalizing cs with
  | nil => simp
  | append_singleton ds d ih =>
    simp only [List.mem_append, List.mem_singleton, not_or] at h
    rcases List.eq_nil_or_concat cs with rfl | ⟨cs, c, rfl⟩
    · rfl
    · rw [List.concat_eq_append]
      have hiff (front : List Char) (e : Char) :
          ds ++ [d] <:+ front ++ [e] ↔ d = e ∧ ds <:+ front := by
        simp [List.suffix_concat_iff]
      by_cases hc : c = '\n'
      · rw [hc, crlf_concat_lineFeed, hiff, hiff]
        simp [Ne.symm h.2]
      · rw [crlf_concat_of_ne cs hc, hiff, hiff, ih h.1]

@[simp] theorem withLf_withCrlf (text : String) : withLf (withCrlf text) = text := by
  simp [withLf, withCrlf]

@[simp] theorem toList_withCrlf (text : String) : (withCrlf text).toList = crlf text.toList := by
  simp [withCrlf]

@[simp] theorem withCrlf_ofList (cs : List Char) :
    withCrlf (String.ofList cs) = String.ofList (crlf cs) := by
  simp [withCrlf]

theorem withCrlf_eq_self {text : String} (h : '\n' ∉ text.toList) : withCrlf text = text := by
  rw [withCrlf, crlf_eq_self h, String.ofList_toList]

/-! ## Folds -/

/-- A fold that makes the same of both spellings of a line break makes the same of both spellings
of a text; `P` is what holds of the states it goes through. -/
theorem foldl_crlf {σ : Type} {f : σ → Char → σ} (P : σ → Prop) (hP : ∀ q c, P q → P (f q c))
    (hbreak : ∀ q, P q → f (f q '\r') '\n' = f q '\n') (cs : List Char) {q : σ} (h : P q) :
    (crlf cs).foldl f q = cs.foldl f q := by
  induction cs generalizing q with
  | nil => rfl
  | cons c cs ih =>
    by_cases hc : c = '\n'
    · rw [hc, crlf_lineFeed, List.foldl_cons, List.foldl_cons, hbreak q h, List.foldl_cons,
        ih (hP q '\n' h)]
    · rw [crlf_cons_of_ne hc, List.foldl_cons, List.foldl_cons, ih (hP q c h)]

/-- A text in either spelling ends at the same position. -/
@[simp] theorem advanceAll_crlf (p : Position) (cs : List Char) :
    p.advanceAll (crlf cs) = p.advanceAll cs :=
  foldl_crlf (fun _ => True) (fun _ _ _ => trivial) (fun _ _ => rfl) cs trivial

/-! ## Trimming -/

section Class

variable {p : Char → Bool} (hp : p '\r' = p '\n')

include hp

theorem takeWhile_crlf (cs : List Char) : (crlf cs).takeWhile p = crlf (cs.takeWhile p) := by
  induction cs with
  | nil => rfl
  | cons c cs ih =>
    by_cases hc : c = '\n'
    · subst hc
      cases h : p '\n' <;> simp [crlf_lineFeed, hp, h, ih]
    · cases h : p c <;> simp [crlf_cons_of_ne hc, h, ih]

theorem dropWhile_crlf (cs : List Char) : (crlf cs).dropWhile p = crlf (cs.dropWhile p) := by
  induction cs with
  | nil => rfl
  | cons c cs ih =>
    by_cases hc : c = '\n'
    · subst hc
      cases h : p '\n' <;> simp [crlf_lineFeed, hp, h, ih]
    · cases h : p c <;> simp [crlf_cons_of_ne hc, h, ih]

theorem all_crlf (cs : List Char) : (crlf cs).all p = cs.all p := by
  induction cs with
  | nil => rfl
  | cons c cs ih =>
    by_cases hc : c = '\n'
    · simp [hc, crlf_lineFeed, hp, ih]
    · simp [crlf_cons_of_ne hc, ih]

end Class

theorem trimStart_crlf (cs : List Char) : trimStart (crlf cs) = crlf (trimStart cs) :=
  dropWhile_crlf (by decide) cs

theorem trimEnd_concat (cs : List Char) (c : Char) :
    trimEnd (cs ++ [c]) = if isBlank c = true then trimEnd cs else cs ++ [c] := by
  simp only [trimEnd, List.reverse_append, List.reverse_singleton, List.singleton_append,
    List.dropWhile_cons]
  split <;> simp

theorem trimEnd_crlf (cs : List Char) : trimEnd (crlf cs) = crlf (trimEnd cs) := by
  induction cs using List.reverseRecOn with
  | nil => rfl
  | append_singleton cs c ih =>
    by_cases hc : c = '\n'
    · rw [hc, crlf_concat_lineFeed, trimEnd_concat, if_pos (by decide), trimEnd_concat,
        if_pos (by decide), ih, trimEnd_concat, if_pos (by decide)]
    · rw [crlf_concat_of_ne cs hc, trimEnd_concat, trimEnd_concat]
      split
      · exact ih
      · exact (crlf_concat_of_ne cs hc).symm

theorem trim_crlf (cs : List Char) : trim (crlf cs) = crlf (trim cs) := by
  rw [trim, trimStart_crlf, trimEnd_crlf, trim]

theorem allBlank_crlf (cs : List Char) : allBlank (crlf cs) = allBlank cs :=
  all_crlf (by decide) cs

theorem trimmed?_crlf (cs : List Char) : trimmed? (crlf cs) = (trimmed? cs).map withCrlf := by
  unfold trimmed?
  rw [trim_crlf]
  cases h : trim cs with
  | nil => rfl
  | cons c rest =>
    have hne : crlf (c :: rest) ≠ [] := by simp
    obtain ⟨d, rest', hcons⟩ := List.exists_cons_of_ne_nil hne
    rw [Option.map_some, withCrlf_ofList, hcons]

/-! ## Strings, parentheses and addresses -/

theorem isQuote_nextQuote {opened : Option Char} (h : ∀ q ∈ opened, isQuote q = true) (c : Char) :
    ∀ q ∈ nextQuote opened c, isQuote q = true := by
  unfold nextQuote
  split
  · split
    · simp
    · exact h
  · split <;> simp_all

theorem ne_of_isQuote {opened : Option Char} (h : ∀ q ∈ opened, isQuote q = true) {quote c : Char}
    (hquote : opened = some quote) (hc : isQuote c = false) : c ≠ quote := by
  rintro rfl
  simp [h c hquote] at hc

theorem nextQuote_eq_self {opened : Option Char} (h : ∀ q ∈ opened, isQuote q = true) {c : Char}
    (hc : isQuote c = false) : nextQuote opened c = opened := by
  unfold nextQuote
  split
  · rw [if_neg (ne_of_isQuote h rfl hc)]
  · simp [hc]

theorem insideString_crlf (cs : List Char) : insideString (crlf cs) = insideString cs := by
  have hfold := foldl_crlf (f := Quoting.next) (fun q => ∀ c ∈ q.opened, isQuote c = true) ?_ ?_ cs
    (q := {}) (by simp)
  · rw [insideString, hfold, insideString]
  · intro q c h
    have hquote := isQuote_nextQuote h c
    unfold Quoting.next
    unfold nextQuote at hquote
    split
    · exact h
    · split
      · exact h
      · split <;> split <;> simp_all
  · -- outside a string and inside it, both characters of a pair end an escape and change no quote
    intro q h
    rcases q with ⟨_ | quote, _ | _⟩
    · rfl
    · rfl
    · have hne := ne_of_isQuote h rfl (c := '\r') rfl
      have hne' := ne_of_isQuote h rfl (c := '\n') rfl
      simp [Quoting.next, hne, hne']
    · have hne := ne_of_isQuote h rfl (c := '\n') rfl
      simp [Quoting.next, hne]

theorem openParens_crlf (cs : List Char) : openParens (crlf cs) = openParens cs := by
  have hfold := foldl_crlf (f := Nesting.next) (fun n => ∀ c ∈ n.quote, isQuote c = true)
    (fun n c h => isQuote_nextQuote h c) ?_ cs (q := {}) (by simp)
  · rw [openParens, hfold, openParens]
  · intro n h
    simp [Nesting.next, nextQuote_eq_self h (c := '\r') rfl, nextQuote_eq_self h (c := '\n') rfl]

theorem before_foldl_next (cs : List Char) :
    (cs.foldl Addressing.next {}).before = cs.reverse := by
  induction cs using List.reverseRecOn with
  | nil => rfl
  | append_singleton cs c ih => simp [Addressing.next, ih]

theorem reverse_crlf (cs : List Char) :
    (crlf cs).reverse = cs.reverse.flatMap fun c => (crlfChar c).reverse := by
  simp [crlf, List.reverse_flatMap, Function.comp_def]

/-- Beginnings that hold no line break are the same in both spellings. -/
theorem sameIgnoringCase_take_crlf (word : List Char) (h : '\n' ∉ word.map Char.toLower)
    (cs : List Char) :
    sameIgnoringCase ((cs.flatMap fun c => (crlfChar c).reverse).take word.length) word =
      sameIgnoringCase (cs.take word.length) word := by
  induction word generalizing cs with
  | nil => simp [sameIgnoringCase]
  | cons d word ih =>
    simp only [List.map_cons, List.mem_cons, not_or] at h
    cases cs with
    | nil => rfl
    | cons c cs =>
      by_cases hc : c = '\n'
      · have hne : (Char.toLower '\n' == d.toLower) = false := beq_false_of_ne h.1
        simp only [hc, crlfChar, sameIgnoringCase, List.flatMap_cons, if_pos, List.reverse_cons,
          List.reverse_nil, List.nil_append, List.cons_append, List.length_cons,
          List.take_succ_cons, List.map_cons, List.cons_beq_cons, hne, Bool.false_and]
      · have hchar : (crlfChar c).reverse = [c] := by simp [crlfChar, hc]
        have hrest := ih h.2 cs
        simp only [sameIgnoringCase] at hrest
        simp only [sameIgnoringCase, List.flatMap_cons, hchar, List.singleton_append,
          List.length_cons, List.take_succ_cons, List.map_cons, List.cons_beq_cons, hrest]

theorem endsInUrl_reverse_crlf (cs : List Char) :
    endsInUrl (crlf cs).reverse = endsInUrl cs.reverse := by
  rw [reverse_crlf]
  exact sameIgnoringCase_take_crlf ['l', 'r', 'u'] (by decide) cs.reverse

theorem foldl_addressing_crlf (cs : List Char) :
    ((crlf cs).foldl Addressing.next {}).quote = (cs.foldl Addressing.next {}).quote ∧
      ((crlf cs).foldl Addressing.next {}).parens = (cs.foldl Addressing.next {}).parens ∧
      ∀ q ∈ (cs.foldl Addressing.next {}).quote, isQuote q = true := by
  induction cs using List.reverseRecOn with
  | nil => simp
  | append_singleton cs c ih =>
    obtain ⟨hquote, hparens, hq⟩ := ih
    have hbefore : endsInUrl ((crlf cs).foldl Addressing.next {}).before =
        endsInUrl (cs.foldl Addressing.next {}).before := by
      rw [before_foldl_next, before_foldl_next, endsInUrl_reverse_crlf]
    simp only [crlf_append, List.foldl_append, List.foldl_cons, List.foldl_nil]
    by_cases hc : c = '\n'
    · have hr := nextQuote_eq_self hq (c := '\r') rfl
      have hn := nextQuote_eq_self hq (c := '\n') rfl
      subst hc
      simp only [crlf_lineFeed, crlf_nil, List.foldl_cons, List.foldl_nil, Addressing.next, hquote,
        hparens, hr, hn]
      exact ⟨trivial, by simp, hq⟩
    · rw [crlf_cons_of_ne hc]
      simp only [crlf_nil, List.foldl_cons, List.foldl_nil, Addressing.next, hquote, hparens,
        hbefore]
      exact ⟨trivial, trivial, isQuote_nextQuote hq c⟩

theorem insideUrl_crlf (cs : List Char) : insideUrl (crlf cs) = insideUrl cs := by
  rw [insideUrl, (foldl_addressing_crlf cs).2.1, insideUrl]

/-! ## Lines -/

theorem lines_cons (c : Char) (cs : List Char) :
    lines (c :: cs) = if c = '\n' then [] :: lines cs else (lines cs).modifyHead (c :: ·) := by
  cases h : lines cs with
  | nil => exact absurd h (lines_ne_nil cs)
  | cons piece rest => simp_all [lines]

/-- Every line of a text is shorter than the text by the line feeds before it at least. -/
theorem add_length_le_of_getElem?_lines {cs line : List Char} {n : Nat}
    (h : (lines cs)[n]? = some line) : n + line.length ≤ cs.length := by
  induction cs generalizing n line with
  | nil =>
    rw [lines, List.foldr_nil, List.getElem?_singleton, Option.ite_none_right_eq_some,
      Option.some.injEq] at h
    obtain ⟨rfl, rfl⟩ := h
    exact Nat.le_refl _
  | cons c cs ih =>
    rw [lines_cons] at h
    rw [List.length_cons]
    split at h
    · cases n with
      | zero => simp [← Option.some.inj h]
      | succ n =>
        have hrest := ih h
        omega
    · obtain ⟨first, rest, hlines⟩ := List.exists_cons_of_ne_nil (lines_ne_nil cs)
      rw [hlines] at h ih
      cases n with
      | zero =>
        have hfirst := ih (n := 0) rfl
        rw [← Option.some.inj h, List.length_cons]
        omega
      | succ n =>
        have hrest := ih (n := n + 1) h
        omega

/-- The lines of the two spellings differ at most by a carriage return at the end. -/
theorem lines_crlf (cs : List Char) :
    List.Forall₂ (fun piece piece' => piece' = piece ∨ piece' = piece ++ ['\r']) (lines cs)
      (lines (crlf cs)) := by
  induction cs with
  | nil => exact List.Forall₂.cons (Or.inl rfl) .nil
  | cons c cs ih =>
    by_cases hc : c = '\n'
    · subst hc
      rw [crlf_lineFeed, lines_cons, if_pos rfl, lines_cons, if_neg (by decide), lines_cons,
        if_pos rfl]
      exact .cons (Or.inr rfl) ih
    · rw [crlf_cons_of_ne hc, lines_cons, if_neg hc, lines_cons, if_neg hc]
      generalize lines cs = pieces at ih
      generalize lines (crlf cs) = pieces' at ih
      cases ih with
      | nil => exact .nil
      | cons hpiece hrest =>
        refine .cons ?_ hrest
        rcases hpiece with rfl | rfl
        · exact Or.inl rfl
        · exact Or.inr rfl

end Text

namespace Payload

open Text

/-- Every line of a comment is trimmed, so its text does not depend on the spelling. -/
theorem cleanComment_crlf (raw : List Char) : cleanComment (crlf raw) = cleanComment raw := by
  have htrim {piece piece' : List Char} (h : piece' = piece ∨ piece' = piece ++ ['\r']) :
      trim piece' = trim piece := by
    rcases h with rfl | rfl
    · rfl
    · exact trim_append_of_allBlank (by decide) piece
  have hlines := lines_crlf raw
  unfold cleanComment
  generalize lines raw = pieces at hlines
  generalize lines (crlf raw) = pieces' at hlines
  cases hlines with
  | nil => rfl
  | @cons first first' rest rest' hfirst hrest =>
    have hclean : rest'.map cleanLine = rest.map cleanLine := by
      induction hrest with
      | nil => rfl
      | cons hpiece _ ih =>
        rw [List.map_cons, List.map_cons, ih, cleanLine, htrim hpiece, cleanLine]
    dsimp only
    rw [htrim hfirst, hclean]

theorem isAtSign_crlf (cs : List Char) : isAtSign (crlf cs) = isAtSign cs := by
  have hsign : crlf ['@'] = ['@'] := by decide
  rw [isAtSign, isAtSign, trimStart_crlf, Bool.eq_iff_iff, beq_iff_eq, beq_iff_eq]
  exact ⟨fun h => crlf_injective (h.trans hsign.symm), fun h => by rw [h, hsign]⟩

/-- A run of characters that are not line breaks is the same in both spellings. -/
theorem takeWhile_crlf_of_not {p : Char → Bool} (hr : p '\r' = false) (hn : p '\n' = false)
    (cs : List Char) : (crlf cs).takeWhile p = cs.takeWhile p := by
  rw [takeWhile_crlf (hr.trans hn.symm)]
  refine crlf_eq_self fun hmem => ?_
  simp [List.mem_takeWhile_imp hmem] at hn

theorem declarationName?_crlf (cs : List Char) :
    declarationName? (crlf cs) = declarationName? cs := by
  have hcolon : crlf [':'] = [':'] := by decide
  have hiff (ds : List Char) : crlf ds = [':'] ↔ ds = [':'] :=
    ⟨fun h => crlf_injective (h.trans hcolon.symm), fun h => by rw [h, hcolon]⟩
  simp only [declarationName?, trimStart_crlf, dropWhile_crlf (p := isNameChar) (by decide), hiff,
    takeWhile_crlf_of_not (p := isNameChar) (by decide) (by decide)]

theorem declarationValue?_crlf (cs : List Char) :
    declarationValue? (crlf cs) = (declarationValue? cs).map withCrlf := by
  unfold declarationValue?
  rw [dropWhile_crlf (by decide)]
  cases h : cs.dropWhile (· != ':') with
  | nil => rfl
  | cons c value =>
    have hc : c = ':' := by
      have hnot := List.head?_dropWhile_not (· != ':') cs
      simpa [h] using hnot
    rw [hc, crlf_cons_of_ne (by decide)]
    exact trimmed?_crlf value

theorem splitAtRule_crlf (cs : List Char) :
    splitAtRule (crlf cs) = ((splitAtRule cs).1, (splitAtRule cs).2.map withCrlf) := by
  -- what is split is the text after the at-sign, or all of it when it begins with something else
  have hsplit (body : List Char) : (String.ofList ((crlf body).takeWhile isAtRuleNameChar),
      trimmed? ((crlf body).dropWhile isAtRuleNameChar)) =
      (String.ofList (body.takeWhile isAtRuleNameChar),
        (trimmed? (body.dropWhile isAtRuleNameChar)).map withCrlf) := by
    rw [takeWhile_crlf_of_not (by decide) (by decide), dropWhile_crlf (by decide), trimmed?_crlf]
  unfold splitAtRule
  rw [trim_crlf]
  rcases trim cs with _ | ⟨c, rest⟩
  · exact hsplit []
  · by_cases hc : c = '@'
    · rw [hc, crlf_cons_of_ne (by decide)]
      exact hsplit rest
    · by_cases hn : c = '\n'
      · rw [hn]
        exact hsplit ('\n' :: rest)
      · have hwhole := hsplit (c :: rest)
        rw [crlf_cons_of_ne hn] at hwhole ⊢
        simpa only [List.cons.injEq, hc, false_and, imp_false, not_false_eq_true, implies_true]
          using hwhole

end Payload

namespace Selector

open Text

theorem firstForbidden?_crlf (cs : List Char) :
    firstForbidden? (crlf cs) = firstForbidden? cs := by
  induction cs with
  | nil => rfl
  | cons c cs ih =>
    simp only [firstForbidden?] at ih ⊢
    by_cases hc : c = '\n'
    · have hr : isAllowed '\r' = true := by decide
      have hn : isAllowed '\n' = true := by decide
      simp [hc, crlf_lineFeed, hr, hn, ih]
    · simp [crlf_cons_of_ne hc, List.find?_cons, ih]

theorem isSelector_crlf (cs : List Char) : isSelector (crlf cs) = isSelector cs := by
  have hempty : (crlf cs).isEmpty = cs.isEmpty := by
    rw [Bool.eq_iff_iff, List.isEmpty_iff, List.isEmpty_iff, crlf_eq_nil_iff]
  rw [isSelector, isSelector, all_crlf (by decide), hempty]

end Selector

end Stylesheet
