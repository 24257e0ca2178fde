import Stylesheet.Proofs.Breaks.Check
import Stylesheet.Proofs.Breaks.Run
import Stylesheet.Proofs.Breaks.Source
import Stylesheet.Proofs.Scoping
import Stylesheet.Proofs.SourceText

set_option autoImplicit false

/-! # Linting both spellings

The tokens of a source without carriage returns are plain (`Source.plain_of_mem_tokens`): their
names hold no line feed, and neither their indentation nor their comments a carriage return. A
source with the same text in the other spelling has the same tokens, re-spelled, and linting it goes
through them in the same order and in the same scopes, so that it finds the same
(`Source.items_findings_crlf`). -/

namespace Stylesheet

/-! ## Plain tokens -/

namespace Payload

open Text

theorem mem_of_mem_trim {c : Char} {cs : List Char} (h : c ∈ trim cs) : c ∈ cs := by
  obtain ⟨blanks, trail, -, -, hcs, hstart⟩ := exists_trim cs
  rw [hcs, hstart]
  simp [h]

theorem mem_of_mem_cleanLine {c : Char} {line : List Char} (h : c ∈ cleanLine line) :
    c ∈ line := by
  unfold cleanLine at h
  split at h
  · next rest heq =>
    refine mem_of_mem_trim ?_
    rw [heq]
    exact List.mem_cons_of_mem _ (mem_of_mem_trim h)
  · exact mem_of_mem_trim h

theorem joinLines_cons_cons (piece next : List Char) (rest : List (List Char)) :
    joinLines (piece :: next :: rest) = piece ++ '\n' :: joinLines (next :: rest) := by
  simp [joinLines, List.intercalate, List.intersperse]

/-- Joined lines are made of their characters and of line feeds. -/
theorem mem_joinLines {c : Char} (hc : c ≠ '\n') {pieces : List (List Char)} :
    c ∈ joinLines pieces ↔ ∃ piece ∈ pieces, c ∈ piece := by
  induction pieces with
  | nil => simp [joinLines]
  | cons piece rest ih =>
    cases rest with
    | nil => simp [joinLines]
    | cons next rest =>
      rw [joinLines_cons_cons, List.mem_append, List.mem_cons, ih]
      simp [hc]

theorem mem_of_mem_lines {c : Char} (hc : c ≠ '\n') {cs piece : List Char}
    (hpiece : piece ∈ lines cs) (h : c ∈ piece) : c ∈ cs := by
  rw [← joinLines_lines cs, mem_joinLines hc]
  exact ⟨piece, hpiece, h⟩

/-- The text of a comment is made of the characters between its delimiters and of line feeds. -/
theorem mem_of_mem_cleanComment {c : Char} (hc : c ≠ '\n') {raw : List Char}
    (h : c ∈ (cleanComment raw).toList) : c ∈ raw := by
  unfold cleanComment at h
  split at h
  · simp at h
  · next first rest hlines =>
    rw [String.toList_ofList] at h
    obtain ⟨piece, hpiece, hmem⟩ := (mem_joinLines hc).1 (mem_of_mem_trim h)
    rcases List.mem_cons.1 hpiece with rfl | hpiece
    · exact mem_of_mem_lines hc (by simp [hlines]) (mem_of_mem_trim hmem)
    · obtain ⟨line, hline, rfl⟩ := List.mem_map.1 hpiece
      exact mem_of_mem_lines hc (by simp [hlines, hline]) (mem_of_mem_cleanLine hmem)

end Payload

open Scan

theorem Leaf.Says.plain {cs : List Char} (hr : '\r' ∉ cs) {forced : Prop} {start stop : Position}
    {content : Leaf} (h : content.Says cs forced start stop) : content.Plain := by
  cases content with
  | selector text anchors => trivial
  | property name value =>
    obtain ⟨gap, rest, -, hname, -⟩ := h
    exact fun hmem => absurd (hname _ hmem) (by decide)
  | atRule name value isBlock =>
    obtain ⟨rest, -, hname, -⟩ := h
    exact fun hmem => absurd (hname _ hmem) (by decide)
  | whitespace text =>
    obtain ⟨before, after, rfl, -⟩ := h
    simp_all [Leaf.Plain]
  | comment text =>
    obtain ⟨content, rfl, hcontent⟩ := h
    intro hmem
    have hraw : '\r' ∈ content := Payload.mem_of_mem_cleanComment (by decide) hmem
    rcases hcontent with ⟨before, after, rfl, -, ⟨front, skipped, rfl, -⟩, -⟩ |
      ⟨-, -, ⟨front, skipped, rfl, -⟩, -⟩ <;> simp_all

theorem Token.Says.plain {cs : List Char} (hr : '\r' ∉ cs) {forced : TokenId → Prop} {t : Token}
    (h : t.Says cs forced) : t.Plain := by
  cases t with
  | leaf place content => exact Leaf.Says.plain hr h
  | block place children => trivial

theorem Source.plain_of_mem_tokens (source : Source) (hr : '\r' ∉ source.characters.items)
    {t : Token} (ht : t ∈ source.tokens) : t.Plain := by
  obtain ⟨blocks, htold⟩ := source.told_tokenize
  refine (htold.tokens t ?_).plain hr
  rw [finished, List.flatMap_append]
  exact List.mem_append_left _ ht

/-! ## Steps -/

/-- The step in a source with line breaks of two characters. -/
def LintStep.crlf : LintStep → LintStep
  | report f => report f.crlf
  | check scope t => check scope.crlf t.crlf

mutual

theorem Token.steps_crlf (scope : Scope) (previous : Option Token) (t : Token) :
    t.crlf.steps scope.crlf (previous.map Token.crlf) =
      (t.steps scope previous).map LintStep.crlf := by
  cases t with
  | leaf place content => rfl
  | block place children =>
    have hchildren := Token.stepsAll_crlf ⟨some (.block place children), previous⟩ none children
    rw [Scope.crlf, Option.map_some, Token.crlf_block] at hchildren
    rw [Token.steps, List.map_cons, ← hchildren, LintStep.crlf, Token.crlf_block, Token.steps]
    rfl

theorem Token.stepsAll_crlf (scope : Scope) (previous : Option Token) (ts : List Token) :
    Token.stepsAll scope.crlf (previous.map Token.crlf) (ts.map Token.crlf) =
      (Token.stepsAll scope previous ts).map LintStep.crlf := by
  cases ts with
  | nil => rfl
  | cons t ts =>
    have hrest := Token.stepsAll_crlf scope (some t) ts
    rw [Option.map_some] at hrest
    rw [List.map_cons, Token.stepsAll, Token.stepsAll, List.map_append, Token.steps_crlf, hrest]

end

theorem stepsOf_crlf (previous : Option Token) (items : List Item) :
    stepsOf (previous.map Token.crlf) (items.map Item.crlf) =
      (stepsOf previous items).map LintStep.crlf := by
  induction items generalizing previous with
  | nil => rfl
  | cons item items ih =>
    cases item with
    | finding f =>
      rw [List.map_cons, Item.crlf, stepsOf, ih, stepsOf]
      rfl
    | token t =>
      have hrest := ih (some t)
      rw [Option.map_some] at hrest
      have hfirst := t.steps_crlf .topLevel previous
      rw [List.map_cons, Item.crlf, stepsOf, stepsOf, List.map_append, ← hfirst, hrest]
      rfl

namespace Source

/-- What linting checks are tokens of the source, and so are the tokens in front of their blocks. -/
theorem mem_tokens_of_check (source : Source) {scope : Scope} {t : Token}
    (h : .check scope t ∈ source.steps) :
    t ∈ source.tokens ∧ ∀ o, scope.opener = some o → o ∈ source.tokens := by
  have hchild {b u : Token} (hb : b ∈ source.tokens) (hu : u ∈ b.children) : u ∈ source.tokens := by
    rw [tokens, ← Token.preorderAll_eq_flatMap] at hb ⊢
    exact Token.mem_preorderAll_of_mem_children _ hb hu
  have hsequence {seq : List Token} (hseq : ∀ u ∈ seq, u ∈ source.tokens)
      (hin : InSequence seq scope t) :
      t ∈ source.tokens ∧ ∀ o, scope.opener = some o → o ∈ source.tokens := by
    obtain ⟨front, b, rest, rfl, rfl, ht⟩ := hin
    refine ⟨hchild (hseq b (by simp)) ht, fun o ho => ?_⟩
    exact hseq o (List.mem_append_left _ (List.mem_of_getLast? ho))
  have houtermost : ∀ u ∈ tokensOf source.tokenize.items, u ∈ source.tokens :=
    fun u hu => List.mem_flatMap.2 ⟨u, hu, u.mem_preorder_self⟩
  rcases mem_stepsOf [] source.tokenize.items h with ⟨rfl, ht⟩ | hin | ⟨c, hc, hin⟩
  · exact ⟨houtermost t ht, by simp [Scope.topLevel]⟩
  · exact hsequence houtermost hin
  · exact hsequence (fun u hu => hchild hc hu) hin

variable (source : Source) (hr : '\r' ∉ source.characters.items)

include hr

/-- The items of a source in both spellings. -/
theorem items_tokenize_crlf :
    source.crlf.tokenize.items = source.tokenize.items.map Item.crlf := by
  have hcharacters := source.characters_crlf
  cases hfailure : source.characters.failure with
  | none =>
    rw [items_tokenize (by rw [hcharacters, hfailure]), hcharacters, items_tokenize hfailure]
    exact scanText_crlf hr
  | some failure =>
    rw [items_tokenize_of_failure (by rw [hcharacters, hfailure]), hcharacters,
      items_tokenize_of_failure hfailure]
    exact (State.after_crlf hr).2

/-- The findings about a source in both spellings. -/
theorem items_findings_crlf (k : Knowledge) :
    (source.crlf.findings k).items = (source.findings k).items.map Finding.crlf := by
  have hsteps : source.crlf.steps = source.steps.map LintStep.crlf := by
    rw [steps, source.items_tokenize_crlf hr]
    exact stepsOf_crlf none source.tokenize.items
  have hstep : ∀ step ∈ source.steps,
      step.crlf.findings k = (step.findings k).map Finding.crlf := by
    intro step hmem
    cases step with
    | report f => rfl
    | check scope t =>
      obtain ⟨ht, hopener⟩ := source.mem_tokens_of_check hmem
      exact Check.token_crlf k (source.plain_of_mem_tokens hr ht)
        fun o ho => source.plain_of_mem_tokens hr (hopener o ho)
  rw [items_findings, items_findings, hsteps, List.flatMap_map, List.map_flatMap]
  exact List.flatMap_congr hstep

end Source

end Stylesheet
