import Stylesheet.Proofs.Breaks.Check
import Stylesheet.Proofs.Indentation
import Stylesheet.Proofs.Location

set_option autoImplicit false

/-! # Where doubled characters are reported

A structural character that is written twice in a selector is looked for in the text of the selector
and reported in the source. The report begins where the first of the two stands. Its end is counted
from there, two columns on, and so it is the end of the second one just when nothing has been taken
out between the two (`Source.doubled_span`). -/

namespace Stylesheet

namespace Text

/-- Masking goes character by character and keeps their sizes. -/
theorem exists_of_maskFrom_eq_append {opened : Option Char} {cs before after : List Char}
    (h : maskFrom opened cs = before ++ after) :
    ∃ front rest opened', cs = front ++ rest ∧ byteSize front = byteSize before ∧
      maskFrom opened' rest = after := by
  induction before generalizing opened cs with
  | nil => exact ⟨[], cs, opened, rfl, rfl, h⟩
  | cons m before ih =>
    cases cs with
    | nil => simp [maskFrom] at h
    | cons c cs =>
      obtain ⟨m', hsize, hmask⟩ := Check.exists_maskFrom_cons opened c
      rw [hmask, List.cons_append, List.cons.injEq] at h
      obtain ⟨rfl, hrest⟩ := h
      obtain ⟨front, rest, opened', rfl, hfront, hafter⟩ := ih hrest
      exact ⟨c :: front, rest, opened', rfl, by simp [hfront, hsize], hafter⟩

/-- What is no space in a masked text stands in the text itself. -/
theorem exists_of_maskFrom_eq_cons {opened : Option Char} {cs rest : List Char} {c : Char}
    (h : maskFrom opened cs = c :: rest) (hc : c ≠ ' ') :
    ∃ cs' opened', cs = c :: cs' ∧ maskFrom opened' cs' = rest := by
  cases cs with
  | nil => simp [maskFrom] at h
  | cons d cs =>
    rw [maskFrom, List.cons.injEq] at h
    obtain ⟨hd, hrest⟩ := h
    split at hd
    · exact absurd hd.symm hc
    · exact ⟨cs, _, by rw [hd], hrest⟩

end Text

namespace Check

/-- A doubled character that is found stands at the offset it is found at. -/
theorem exists_of_mem_doubledFrom {offset n : Nat} {c : Char} {cs : List Char}
    (h : (n, c) ∈ doubledFrom offset cs) :
    ∃ before after, cs = before ++ c :: c :: after ∧ offset + Text.byteSize before = n := by
  fun_induction doubledFrom offset cs with
  | case1 offset d e rest hde ih =>
    obtain ⟨rfl, -⟩ := hde
    rcases List.mem_cons.1 h with h | h
    · obtain ⟨rfl, rfl⟩ := Prod.mk.inj h
      exact ⟨[], rest, rfl, rfl⟩
    · obtain ⟨before, after, rfl, hn⟩ := ih h
      exact ⟨d :: d :: before, after, rfl, by simp only [Text.byteSize_cons]; omega⟩
  | case2 offset d e rest hde ih =>
    obtain ⟨before, after, hrest, hn⟩ := ih h
    exact ⟨d :: before, after, by rw [hrest]; rfl, by simp only [Text.byteSize_cons]; omega⟩
  | case3 => simp at h

/-- A doubled character that is found outside strings stands in the text itself. -/
theorem exists_pair {n : Nat} {c : Char} {text : List Char}
    (h : (n, c) ∈ doubledFrom 0 (Text.maskQuoted text)) :
    c ∈ structural ∧
      ∃ before after, text = before ++ c :: c :: after ∧ Text.byteSize before = n := by
  have hc : c ∈ structural := structural_of_mem_doubledFrom h
  have hspace : c ≠ ' ' := ne_of_mem_of_not_mem hc (by decide)
  obtain ⟨before, after, hmask, hn⟩ := exists_of_mem_doubledFrom h
  obtain ⟨front, rest, opened, rfl, hfront, hrest⟩ := Text.exists_of_maskFrom_eq_append hmask
  obtain ⟨rest', opened', rfl, hrest'⟩ := Text.exists_of_maskFrom_eq_cons hrest hspace
  obtain ⟨after', -, rfl, -⟩ := Text.exists_of_maskFrom_eq_cons hrest' hspace
  exact ⟨hc, front, after', rfl, by omega⟩

/-- A finding about a doubled character begins where the first of the two is located and is two
columns wide. -/
theorem exists_of_mem_selector {place : Placement} {text : String} {anchors : List Anchor}
    {f : Finding} (hf : f ∈ selector place text anchors) {pair text' : String}
    (hissue : f.issue = .doubledCharacter pair text') :
    ∃ before c after, text.toList = before ++ c :: c :: after ∧ c ∈ structural ∧
      pair = String.ofList [c, c] ∧ text' = text ∧
      f.start = Token.locateIn place.start anchors text (Text.byteSize before) ∧
      f.stop = f.start.nextColumn.nextColumn := by
  -- the other findings about a selector are about something else
  rcases cases_of_mem_selector hf with ⟨n, c, -, rfl⟩ | ⟨n, c, hpair, rfl⟩ | rfl
  · exact absurd hissue (by simp [selectorFinding, Finding.spanning])
  on_goal 2 => exact absurd hissue (by simp [Finding.spanning])
  obtain ⟨hc, before, after, htext, rfl⟩ := exists_pair hpair
  obtain ⟨rfl, rfl⟩ := Issue.doubledCharacter.inj hissue
  refine ⟨before, c, after, htext, hc, rfl, rfl, rfl, ?_⟩
  have hbreak : c ≠ '\n' := ne_of_mem_of_not_mem hc (by decide)
  have hstop (p : Position) : p.advanceAll [c, c] = p.nextColumn.nextColumn := by
    simp [Position.advance_of_ne hbreak]
  have hlt (p : Position) : p < p.nextColumn.nextColumn :=
    lt_trans p.lt_nextColumn (Position.lt_nextColumn _)
  show Position.widen _ _ = _
  rw [hstop, Position.widen_of_lt (hlt _)]
  rfl

end Check

/-! ## Neighbours in a text -/

theorem Position.nextColumn_inj {p q : Position} : p.nextColumn = q.nextColumn ↔ p = q := by
  cases p
  cases q
  simp [Position.nextColumn]

namespace Cell

variable {p : Position} {cs : List Char} {a b : Cell}

/-- A cell that stands after another one is among the cells from the end of that one on. -/
theorem exists_after_of_lt (ha : a ∈ ofText p cs) (hb : b ∈ ofText p cs)
    (hlt : a.position < b.position) :
    ∃ before after, cs = before ++ a.char :: after ∧ a.position = p.advanceAll before ∧
      b ∈ ofText a.stop after := by
  obtain ⟨before, after, rfl, hposition⟩ := mem_ofText_iff.1 ha
  refine ⟨before, after, rfl, hposition, ?_⟩
  rw [ofText_append, ofText, List.mem_append, List.mem_cons, ← hposition] at hb
  rcases hb with hb | rfl | hb
  · have hle := stop_le_of_mem_ofText hb
    rw [← hposition] at hle
    exact absurd (lt_of_lt_of_le b.position_lt_stop hle) (not_lt.2 (le_of_lt hlt))
  · exact absurd hlt (lt_irrefl _)
  · exact hb

/-- One cell ends where another begins just when no cell stands between them. -/
theorem stop_eq_position_iff (ha : a ∈ ofText p cs) (hb : b ∈ ofText p cs)
    (hlt : a.position < b.position) :
    a.stop = b.position ↔
      ∀ cell ∈ ofText p cs, ¬ (a.position < cell.position ∧ cell.position < b.position) := by
  constructor
  · rintro hstop cell hcell ⟨hleft, hright⟩
    obtain ⟨-, after, -, -, hafter⟩ := exists_after_of_lt ha hcell hleft
    rw [← hstop] at hright
    exact absurd hright (not_lt.2 (le_position_of_mem_ofText hafter))
  · intro hbetween
    obtain ⟨before, after, rfl, hposition, hafter⟩ := exists_after_of_lt ha hb hlt
    cases after with
    | nil => simp at hafter
    | cons c after =>
      -- the next character stands at the end of the first cell
      have hnext : (⟨c, a.stop⟩ : Cell) ∈ ofText p (before ++ a.char :: c :: after) := by
        rw [ofText_append, ← hposition]
        simp [ofText, Cell.stop]
      have hnot := hbetween _ hnext
      rw [not_and] at hnot
      exact le_antisymm (le_position_of_mem_ofText hafter)
        (not_lt.1 (hnot a.position_lt_stop))

end Cell

/-! ## Doubled characters in a source -/

namespace Source

open Scan

/-- A finding about a doubled character in a selector of a source begins at the first of two like
characters that stand next to each other in the source outside comments. It ends right after the
second one just when that follows in the source itself, with nothing taken out between the two. -/
theorem doubled_span (source : Source) (k : Knowledge) (scope : Scope) {place : Placement}
    {text : String} {anchors : List Anchor}
    (ht : .leaf place (.selector text anchors) ∈ source.tokens) {found : List Finding}
    (hfound : Checker.selector.check k scope (.leaf place (.selector text anchors)) = .ok found)
    {f : Finding} (hf : f ∈ found) {pair text' : String}
    (hissue : f.issue = .doubledCharacter pair text') :
    ∃ before first second after,
      Cell.between place.start place.stop (uncommented source.characters.items) =
        before ++ first :: second :: after ∧
      first.char ∈ Check.structural ∧ second.char = first.char ∧
      pair = String.ofList [first.char, second.char] ∧ text' = text ∧
      f.start = first.position ∧ f.stop = first.position.nextColumn.nextColumn ∧
      (f.stop = second.position.nextColumn ↔
        ∀ cell ∈ Cell.ofText .start source.characters.items,
          ¬ (first.position < cell.position ∧ cell.position < second.position)) := by
  obtain ⟨htext, -, hlocate⟩ := source.traces_of_mem_tokens ht
  obtain rfl : Check.selector place text anchors = found := Except.ok.inj hfound
  obtain ⟨front, c, rest, hsplit, hc, rfl, rfl, hstart, hstop⟩ :=
    Check.exists_of_mem_selector hf hissue
  rw [htext, String.toList_ofList] at hsplit
  obtain ⟨before, tail, hcells, rfl, htail⟩ := List.map_eq_append_iff.1 hsplit
  obtain ⟨first, tail', rfl, rfl, htail'⟩ := List.map_eq_cons_iff.1 htail
  obtain ⟨second, after, rfl, hsecond, -⟩ := List.map_eq_cons_iff.1 htail'
  have hfirst : f.start = first.position := by
    rw [hstart, htext, hlocate before _ hcells]
    rfl
  rw [hfirst] at hstop
  refine ⟨before, first, second, after, hcells, hc, hsecond, by rw [hsecond], rfl, hfirst, hstop,
    ?_⟩
  have hmem (cell : Cell) (hcell : cell ∈ before ++ first :: second :: after) :
      cell ∈ Cell.ofText .start source.characters.items := by
    rw [← hcells] at hcell
    exact (List.mem_filter.1 (List.mem_filter.1 hcell).1).1
  have hordered : Cell.Ordered (before ++ first :: second :: after) :=
    hcells ▸ (ordered_uncommented _).filter _
  have hle : first.stop ≤ second.position :=
    (List.pairwise_cons.1 (List.pairwise_append.1 hordered).2.1).1 second (by simp)
  have hlt : first.position < second.position := lt_of_lt_of_le first.position_lt_stop hle
  have hbreak : first.char ≠ '\n' := ne_of_mem_of_not_mem hc (by decide)
  rw [← Cell.stop_eq_position_iff (hmem first (by simp)) (hmem second (by simp)) hlt, hstop,
    Cell.stop, Position.advance_of_ne hbreak, Position.nextColumn_inj]

/-- Two characters behind a comment. -/
theorem doubled_span_behind_comment :
    let source := ofString "a/*x*/##b{}"
    let t := Token.leaf ⟨1, none, none, ⟨1, 1⟩, ⟨1, 10⟩⟩ (.selector "a##b" [⟨1, ⟨1, 7⟩⟩])
    let f : Finding := ⟨.doubledCharacter "##" "a##b", ⟨1, 7⟩, ⟨1, 9⟩⟩
    t ∈ source.tokens ∧ Checker.selector.check .builtIn .topLevel t = .ok [f] ∧
      ∃ before first second after,
        Cell.between t.start t.stop (uncommented source.characters.items) =
          before ++ first :: second :: after ∧
        f.start = first.position ∧
        (f.stop = second.position.nextColumn ↔
          ∀ cell ∈ Cell.ofText .start source.characters.items,
            ¬ (first.position < cell.position ∧ cell.position < second.position)) := by
  intro source t f
  have hcharacters : source.characters = { items := "a/*x*/##b{}".toList } := by
    rw [characters_ofString]
    decide +kernel
  have ht : t ∈ source.tokens := by
    rw [tokens, items_tokenize (by rw [hcharacters]), hcharacters]
    decide +kernel
  have hfound : Checker.selector.check .builtIn .topLevel t = .ok [f] := by
    show Except.ok (Check.selector _ "a##b" _) = _
    rw [show Check.selector ⟨1, none, none, ⟨1, 1⟩, ⟨1, 10⟩⟩ "a##b" [⟨1, ⟨1, 7⟩⟩] = [f] by
      decide +kernel]
  obtain ⟨before, first, second, after, hcells, -, -, -, -, hstart, -, hstop⟩ :=
    source.doubled_span .builtIn .topLevel ht hfound (List.mem_singleton_self f) rfl
  exact ⟨ht, hfound, before, first, second, after, hcells, hstart, hstop⟩

/-- Two characters with a comment between them are reported up to somewhere in the comment. -/
theorem doubled_span_around_comment :
    let source := ofString "a#/**/#{}"
    let t := Token.leaf ⟨1, none, none, ⟨1, 1⟩, ⟨1, 8⟩⟩ (.selector "a##" [⟨2, ⟨1, 7⟩⟩])
    t ∈ source.tokens ∧
      Cell.between t.start t.stop (uncommented source.characters.items) =
        [⟨'a', ⟨1, 1⟩⟩, ⟨'#', ⟨1, 2⟩⟩, ⟨'#', ⟨1, 7⟩⟩] ∧
      ∃ f ∈ (source.findings .builtIn).items, f.issue = .doubledCharacter "##" "a##" ∧
        f.start = ⟨1, 2⟩ ∧ f.stop ≠ Position.nextColumn ⟨1, 7⟩ := by
  intro source t
  have hcharacters : source.characters = { items := "a#/**/#{}".toList } := by
    rw [characters_ofString]
    decide +kernel
  have hitems : source.tokenize.items =
      [.token t, .token (.block ⟨2, none, some 1, ⟨1, 8⟩, ⟨1, 10⟩⟩ [])] := by
    rw [items_tokenize (by rw [hcharacters]), hcharacters]
    decide +kernel
  have hf : ⟨.doubledCharacter "##" "a##", ⟨1, 2⟩, ⟨1, 4⟩⟩ ∈ (source.findings .builtIn).items := by
    rw [items_findings, steps, hitems]
    decide +kernel
  refine ⟨?_, ?_, _, hf, rfl, rfl, by decide⟩
  · rw [tokens, hitems]
    exact List.mem_cons_self ..
  · rw [hcharacters]
    decide +kernel

end Source

end Stylesheet
