import Stylesheet.Proofs.Breaks.Lint
import Stylesheet.Proofs.Report

set_option autoImplicit false

/-! # Line endings make no difference

A source without carriage returns and the same source with line breaks of two characters have the
same tokens at the same places, and linting them gives the same findings
(`Source.lineEndings_irrelevant`). Texts of tokens and messages follow the spelling of the source:
replacing every pair in them by a line feed gives those of the source with line feeds. -/

namespace Stylesheet

open Text

/-! ## Texts -/

namespace Text

theorem lf_eq_self {cs : List Char} (h : '\n' ∉ cs ∨ '\r' ∉ cs) : lf cs = cs := by
  fun_induction lf cs with
  | case1 => rfl
  | case2 cs ih => simp at h
  | case3 c cs hpair ih =>
    simp only [List.mem_cons, not_or] at h
    rw [ih (h.imp And.right And.right)]

/-- A pair is not cut in two when the second text does not begin with a line feed. -/
theorem lf_append (cs : List Char) {ds : List Char} (h : ds.head? ≠ some '\n') :
    lf (cs ++ ds) = lf cs ++ lf ds := by
  fun_induction lf cs with
  | case1 => rfl
  | case2 cs ih => rw [List.cons_append, List.cons_append, lf, ih, List.cons_append]
  | case3 c cs hpair ih =>
    rw [List.cons_append, lf, ih, List.cons_append]
    intro es hc hes
    cases cs with
    | nil =>
      rw [List.nil_append] at hes
      simp [hes] at h
    | cons d cs =>
      rw [List.cons_append, List.cons.injEq] at hes
      exact hpair cs hc (by rw [hes.1])

theorem withLf_eq_self {text : String} (h : '\n' ∉ text.toList ∨ '\r' ∉ text.toList) :
    withLf text = text := by
  rw [withLf, lf_eq_self h, String.ofList_toList]

theorem withLf_append (a : String) {b : String} (h : b.toList.head? ≠ some '\n') :
    withLf (a ++ b) = withLf a ++ withLf b := by
  rw [withLf, String.toList_append, lf_append _ h, String.ofList_append, withLf, withLf]

theorem withCrlf_append (a b : String) : withCrlf (a ++ b) = withCrlf a ++ withCrlf b := by
  simp [withCrlf]

theorem not_mem_hexadecimal (n : Nat) : '\n' ∉ (hexadecimal n).toList := by
  rw [hexadecimal, String.toList_ofList]
  have hdigit (d : Nat) : '\n' ≠ d.digitChar := (Nat.digitChar_ne '\n' (by decide)).symm
  induction n using Nat.strongRecOn with
  | ind n ih =>
    rw [Nat.toDigits_eq_if (by decide)]
    split
    · simp [hdigit]
    · simp [hdigit, ih (n / 16) (by omega)]

theorem not_mem_escaped (c : Char) : '\n' ∉ (escaped c).toList := by
  unfold escaped
  split_ifs with ht hr hn hs hq hb hprint
  · decide
  · decide
  · decide
  · decide
  · decide
  · decide
  · simp [Ne.symm hn]
  · simp [not_mem_hexadecimal]

end Text

/-! ## Messages -/

namespace Issue

theorem withCrlf_quoted (text : String) : withCrlf (quoted text) = quoted (withCrlf text) := by
  have h : withCrlf "\"" = "\"" := withCrlf_eq_self (by decide)
  rw [quoted, withCrlf_append, withCrlf_append, h, quoted]

/-- Messages are spelled like the texts in them. -/
theorem withLf_message (issue : Issue) :
    withLf (issue.mapText withCrlf).message = issue.message := by
  cases issue with
  | forbiddenCharacter c text =>
    have hplain : '\n' ∉ (quoted (String.singleton c)).toList ∨
        '\r' ∉ (quoted (String.singleton c)).toList := by
      by_cases hc : c = '\n'
      · exact Or.inr (by simp [quoted, hc])
      · exact Or.inl (by simp [quoted, Ne.symm hc])
    have hfront : withLf ("Unexpected character " ++ quoted (String.singleton c) ++
        " in selector ") = "Unexpected character " ++ quoted (String.singleton c) ++
        " in selector " :=
      withLf_eq_self (hplain.imp (fun h => by simp [h]) (fun h => by simp [h]))
    have hselector : withLf (quoted (withCrlf text)) = quoted text := by
      rw [← withCrlf_quoted, withLf_withCrlf]
    unfold message mapText
    rw [withLf_append _ (by simp [quoted]), hfront, hselector]
  | indentationCharacter c =>
    unfold message mapText
    exact withLf_eq_self (Or.inl (by simp [quoted, not_mem_escaped]))
  | unclosed type => exact withLf_eq_self (Or.inl (by cases type <;> decide))
  | remark key text => exact withLf_withCrlf text
  | _ =>
    refine (congrArg withLf ?_).trans (withLf_withCrlf _)
    unfold message mapText
    simp (disch := decide +kernel) only [withCrlf_append, withCrlf_quoted, withCrlf_eq_self]

end Issue

/-! ## Tokens -/

theorem Leaf.lf_crlf {content : Leaf} (h : content.Plain) : content.crlf.lf = content := by
  cases content with
  | selector text anchors =>
    have hanchors : (anchors.map (Anchor.crlf text.toList)).map
        (fun a => (⟨lfOffset (withCrlf text).toList a.offset, a.position⟩ : Anchor)) = anchors := by
      rw [List.map_map, toList_withCrlf]
      exact (List.map_congr_left fun a _ => by
        simp [Anchor.crlf, lfOffset_crlfOffset]).trans (List.map_id _)
    rw [crlf, lf, withLf_withCrlf, hanchors]
  | property name value =>
    have hvalue : (value.map withCrlf).map withLf = value := by cases value <;> simp
    rw [crlf, lf, withLf_eq_self (Or.inl h), hvalue]
  | atRule name value isBlock =>
    have hvalue : (value.map withCrlf).map withLf = value := by cases value <;> simp
    rw [crlf, lf, withLf_eq_self (Or.inl h), hvalue]
  | comment text => rw [crlf, lf, withLf_eq_self (Or.inr h)]
  | whitespace text => rw [crlf, lf, withLf_withCrlf]

mutual

theorem Token.lf_crlf (t : Token) (h : ∀ u ∈ t.preorder, u.Plain) : t.crlf.lf = t := by
  cases t with
  | leaf place content =>
    have hplain : content.Plain := h _ (Token.mem_preorder_self _)
    exact congrArg (Token.leaf place) (Leaf.lf_crlf hplain)
  | block place children =>
    have hchildren := Token.lf_crlf_all children fun u hu => h u (List.mem_cons_of_mem _ hu)
    rw [Token.crlf_block, Token.lf, Token.mapLeaf, Token.mapLeafAll_eq_map, List.map_map]
    exact congrArg (Token.block place) hchildren

theorem Token.lf_crlf_all (ts : List Token) (h : ∀ u ∈ Token.preorderAll ts, u.Plain) :
    ts.map (Token.lf ∘ Token.crlf) = ts := by
  cases ts with
  | nil => rfl
  | cons t ts =>
    have hfirst := Token.lf_crlf t fun u hu => h u (List.mem_append_left _ hu)
    have hrest := Token.lf_crlf_all ts fun u hu => h u (List.mem_append_right _ hu)
    rw [List.map_cons, Function.comp_apply, hfirst, hrest]

end

/-! ## Sources -/

namespace Finding

/-- What a report shows of a finding. -/
def shown (f : Finding) : FindingKey × Position × Position × String :=
  (f.key, f.start, f.stop, f.message)

/-- The same with every pair in the message replaced by a line feed. -/
def shownLf (f : Finding) : FindingKey × Position × Position × String :=
  (f.key, f.start, f.stop, withLf f.message)

theorem shownLf_crlf (f : Finding) : f.crlf.shownLf = f.shown := by
  simp [shownLf, shown, key, message, crlf, Issue.withLf_message]

end Finding

namespace Source

variable (source : Source)

/-- A source without carriage returns has the same items and the same findings as the source with
line breaks of two characters, once every pair in a text is replaced by a line feed. -/
theorem lineEndings_irrelevant (k : Knowledge) (hr : '\r' ∉ source.characters.items) :
    source.crlf.tokenize.items.map Item.lf = source.tokenize.items ∧
    source.crlf.tokenize.failure = source.tokenize.failure ∧
    (source.crlf.findings k).items.map Finding.shownLf =
      (source.findings k).items.map Finding.shown ∧
    (source.crlf.lint k).map (List.map Finding.shownLf) =
      (source.lint k).map (List.map Finding.shown) := by
  have hfindings : (source.crlf.findings k).items.map Finding.shownLf =
      (source.findings k).items.map Finding.shown := by
    rw [source.items_findings_crlf hr, List.map_map]
    exact List.map_congr_left fun f _ => f.shownLf_crlf
  refine ⟨?_, ?_, hfindings, ?_⟩
  · have hitem : ∀ item ∈ source.tokenize.items, item.crlf.lf = item := by
      intro item hitem
      cases item with
      | finding f => rw [Item.crlf, Item.lf, Finding.lf_crlf]
      | token t =>
        have ht : t ∈ tokensOf source.tokenize.items := List.mem_filterMap.2 ⟨_, hitem, rfl⟩
        rw [Item.crlf, Item.lf, Token.lf_crlf t]
        intro u hu
        exact source.plain_of_mem_tokens hr (List.mem_flatMap.2 ⟨t, ht, hu⟩)
    rw [source.items_tokenize_crlf hr, List.map_map]
    exact (List.map_congr_left hitem).trans (List.map_id _)
  · rw [failure_tokenize, characters_crlf, failure_tokenize]
  · rw [lint, Stream.toExcept, failure_findings, characters_crlf, lint, Stream.toExcept,
      failure_findings]
    cases source.characters.failure with
    | none => exact congrArg Except.ok hfindings
    | some failure => rfl

/-- A selector over two lines, and indentation. -/
theorem lineEndings_irrelevant_selector :
    '\r' ∉ (ofString "a,\nb\x7b\n c:d\x7d").characters.items ∧
    (ofString "a,\r\nb\x7b\r\n c:d\x7d").tokenize.items.map Item.lf =
      (ofString "a,\nb\x7b\n c:d\x7d").tokenize.items := by
  have hcharacters : '\r' ∉ (ofString "a,\nb\x7b\n c:d\x7d").characters.items := by
    rw [characters_ofString]
    decide +kernel
  have hsource : (ofString "a,\nb\x7b\n c:d\x7d").crlf = ofString "a,\r\nb\x7b\r\n c:d\x7d" := by
    rw [crlf_ofString]
    exact congrArg ofString (by decide +kernel)
  have h := (lineEndings_irrelevant (ofString "a,\nb\x7b\n c:d\x7d") .builtIn hcharacters).1
  rw [hsource] at h
  exact ⟨hcharacters, h⟩

end Source

end Stylesheet
