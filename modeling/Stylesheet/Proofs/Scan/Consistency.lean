import Mathlib.Data.List.Infix
import Stylesheet.Proofs.Scan.Coherence
import Stylesheet.Source

set_option autoImplicit false

/-! # The state between two characters

`State.Consistent` spells out how every part of the state agrees with the text scanned so far: what
is pending, and what each kind of open token and an open comment say about it. Nearly all of it is
`State.Settled`, said of the whole window. What has to be added is that an open comment holds no end
of a comment (`OpenComment.Unended`): every character in it is looked at, and the first end after
the opening closes it. -/

namespace Stylesheet

namespace Text

universe u

variable {α : Type u}

/-- Two cuts of a text at the same byte are the same cut. -/
theorem append_inj_of_byteSize {char : α → Char} {before after before' after' : List α}
    (h : before ++ after = before' ++ after')
    (hsize : byteSize (before.map char) = byteSize (before'.map char)) :
    before = before' ∧ after = after' := by
  have hcut := splitAtByte?_append char before after
  rw [h, hsize, splitAtByte?_append] at hcut
  simpa [eq_comm] using hcut

end Text

/-! ## Comments without an end -/

/-- From its offset on, the cells are the opening of the comment and text that does not end it. -/
def OpenComment.Unended (k : OpenComment) (cells : List Cell) : Prop :=
  ∃ (before inside : List Cell) (slash star : Cell), cells = before ++ slash :: star :: inside ∧
    Text.byteSize (Cell.text before) = k.offset ∧ ¬ ['*', '/'] <:+: Cell.text inside

/-- A comment in the window is ended exactly when the text after its opening ends in an end. -/
theorem Window.isOpen_iff {w : Window} (hbytes : w.bytes = Text.byteSize w.text)
    {before inside : List Cell} {slash star : Cell}
    (hcells : w.cells = before ++ slash :: star :: inside) (hslash : slash.char = '/')
    (hstar : star.char = '*') :
    (w.bytes < Text.byteSize (Cell.text before) + 4 ∨ w.endsIn ['*', '/'] = false) ↔
      ¬ ['*', '/'] <:+ Cell.text inside := by
  have htext : w.text = Cell.text before ++ ['/', '*'] ++ Cell.text inside := by
    simp [Window.text, hcells, hslash, hstar]
  have hsize :
      w.bytes = Text.byteSize (Cell.text before) + 2 + Text.byteSize (Cell.text inside) := by
    rw [hbytes, htext, Text.byteSize_append, Text.byteSize_append]
    rfl
  rw [← not_iff_not, not_or, Nat.not_lt, Bool.not_eq_false, Window.endsIn_iff, not_not, htext]
  constructor
  · -- the two characters of the end must not overlap the two of the opening
    rintro ⟨hfour, hends⟩
    obtain ⟨front, hfront⟩ := hends
    rcases List.eq_nil_or_concat (Cell.text inside) with hnil | ⟨most, last, hconcat⟩
    · have hlast := congrArg List.getLast? hfront
      simp [hnil] at hlast
    · rw [List.concat_eq_append] at hconcat
      rcases List.eq_nil_or_concat most with rfl | ⟨fewer, other, rfl⟩
      · have hlast := congrArg List.getLast? hfront
        simp only [hconcat, List.nil_append, List.getLast?_append, List.getLast?_cons_cons,
          List.getLast?_singleton, Option.some_or, Option.some.injEq] at hlast
        rw [hsize, hconcat, ← hlast] at hfour
        have hone : Text.byteSize ([] ++ ['/']) = 1 := rfl
        omega
      · rw [List.concat_eq_append] at hconcat
        have hsplit : front ++ ['*', '/'] =
            (Cell.text before ++ ['/', '*'] ++ fewer) ++ [other, last] := by
          rw [hfront, hconcat]
          simp
        obtain ⟨-, hend⟩ := List.append_inj' hsplit rfl
        exact ⟨fewer, by rw [hconcat, hend]; simp⟩
  · intro hinside
    refine ⟨?_, hinside.trans (List.suffix_append _ _)⟩
    obtain ⟨front, hfront⟩ := hinside
    have htwo : Text.byteSize ['*', '/'] = 2 := rfl
    rw [hsize, ← hfront, Text.byteSize_append, htwo]
    omega

namespace Scan

section Step

variable {s s' : State} {cs : List Char} {c : Char} {rule : Rule} {outcome : Outcome}

/-- A comment that goes on has not been ended by the last character. -/
theorem unended_of_inComment (hs : s.Offered cs c) {k : OpenComment} (hk : s.comment = some k)
    (hopen : s.window.bytes < k.offset + 4 ∨ s.window.endsIn ['*', '/'] = false)
    (hold : k.Unended s.window.body) : k.Unended s.window.cells := by
  obtain ⟨before, inside, slash, star, hbody, hsize, hnone⟩ := hold
  obtain ⟨before', inside', slash', star', hbody', hslash, hstar, hsize', -⟩ :=
    hs.coherent.comment k hk
  obtain ⟨rfl, hrest⟩ := Text.append_inj_of_byteSize (hbody.symm.trans hbody')
    (hsize.trans hsize'.symm)
  simp only [List.cons.injEq] at hrest
  obtain ⟨rfl, rfl, rfl⟩ := hrest
  have hcells : s.window.cells = before ++ slash :: star :: (inside ++ [⟨c, s.position⟩]) := by
    rw [hs.cells, hbody]
    simp
  refine ⟨before, inside ++ [⟨c, s.position⟩], slash, star, hcells, hsize, ?_⟩
  rw [← hsize, Window.isOpen_iff hs.window.bytes hcells hslash hstar] at hopen
  intro hinfix
  rw [Cell.text, List.map_append] at hinfix hopen
  rcases List.infix_concat_iff.1 hinfix with hsuffix | hinside
  · exact hopen hsuffix
  · exact hnone hinside

/-- What is claimed leaves no comment open that has been ended. -/
theorem Claim.unended (hs : s.Offered cs c) (h : Claim s c rule outcome s')
    (hold : ∀ k, s.comment = some k → k.Unended s.window.body) (k : OpenComment)
    (hk' : s'.comment = some k) : k.Unended s'.window.cells := by
  cases h with
  | inComment _ _ hopen =>
    rename_i k₀ hk₀
    rw [hk₀, Option.some.injEq] at hk'
    subst hk'
    exact unended_of_inComment hs hk₀ hopen (hold k₀ hk₀)
  | openComment hk star slash before hrecent hstar hslash =>
    simp only [State.openComment, Option.some.injEq] at hk'
    subst hk'
    have hcells : s.window.cells = before.reverse ++ slash :: star :: [] := by
      simp [Window.cells, hrecent]
    exact ⟨before.reverse, [], slash, star, hcells,
      byteSize_of_opening hs.window hrecent hstar hslash, by simp⟩
  | stripComment | closeComment => simp at hk'
  | closeAtRule hk | openAtRule hk | selector hk | openProperty hk | closeProperty hk
  | rejectBlank hk | rejectContent hk | openBlock hk | openUnclaimed hk | closeBlock hk
  | closeBlockAfter hk | strayBrace hk | strayContent hk | openWhitespace hk | inWhitespace hk
  | closeWhitespace hk =>
    simp [State.openToken, State.clearWindow, State.openBlock, hk] at hk'

end Step

namespace State

theorem preserves_unended (cs : List Char) (c : Char) :
    Preserves c
      (fun _ s => s.Offered cs c ∧ ∀ k, s.comment = some k → k.Unended s.window.body)
      (fun _ s => s.OfferedAgain cs c)
      (fun _ s => ∀ k, s.comment = some k → k.Unended s.window.cells) where
  last hs := hs.1.last
  first_of_again hs := ⟨hs.toOffered, by simp [hs.comment_eq_none]⟩
  done_of_again hs := by simp [hs.comment_eq_none]
  done_of_skip hs hskip := by simp [hs.1.comment_eq_none (hskip .comment (by decide))]
  done_of_claim hs hclaim _ := hclaim.unended hs.1 hs.2
  done_of_token hs hclaim ht _ := by simp [(hclaim.eq_none_of_token hs.1 ht).2]
  again_of_token hs hclaim ht _ := hclaim.offeredAgain hs.1 ht

/-- Between two characters no open comment has been ended. -/
theorem unended_after (cs : List Char) :
    ∀ k, (State.after {} cs).comment = some k → k.Unended (State.after {} cs).window.cells := by
  induction cs using List.reverseRecOn with
  | nil => simp
  | append_singleton cs c ih =>
    rw [after_concat]
    exact (preserves_unended cs c).scan [] ⟨(settled_after cs).arrive c, ih⟩

end State

end Scan

/-! ## What open tokens say -/

/-- Past the blanks, a declaration begins with its name and a colon after blanks. -/
theorem trimStart_of_declarationName? {cs : List Char} {name : String}
    (h : Payload.declarationName? cs = some name) :
    ∃ gap, Text.trimStart cs = name.toList ++ gap ++ [':'] ∧ Text.allBlank gap = true := by
  unfold Payload.declarationName? at h
  dsimp only at h
  split at h
  · next hcolon =>
    simp only [Option.some.injEq] at h
    subst h
    have hgap := List.takeWhile_append_dropWhile (p := Text.isBlank)
      (l := (Text.trimStart cs).dropWhile Text.isNameChar)
    rw [show List.dropWhile Text.isBlank _ = [':'] from hcolon] at hgap
    refine ⟨((Text.trimStart cs).dropWhile Text.isNameChar).takeWhile Text.isBlank, ?_,
      List.all_takeWhile⟩
    rw [String.toList_ofList, List.append_assoc, hgap, List.takeWhile_append_dropWhile]
  · simp at h

/-- A declaration begins with its name, after blanks, and a colon, after blanks. -/
theorem exists_of_declarationName? {cs : List Char} {name : String}
    (h : Payload.declarationName? cs = some name) :
    ∃ blanks gap, cs = blanks ++ name.toList ++ gap ++ [':'] ∧ Text.allBlank blanks = true ∧
      Text.allBlank gap = true := by
  obtain ⟨gap, hstart, hgap⟩ := trimStart_of_declarationName? h
  refine ⟨cs.takeWhile Text.isBlank, gap, ?_, List.all_takeWhile, hgap⟩
  have hcs : cs.takeWhile Text.isBlank ++ Text.trimStart cs = cs :=
    List.takeWhile_append_dropWhile
  rw [List.append_assoc, List.append_assoc, ← List.append_assoc name.toList, ← hstart, hcs]

theorem isNameChar_of_declarationName? {cs : List Char} {name : String}
    (h : Payload.declarationName? cs = some name) {c : Char} (hc : c ∈ name.toList) :
    Text.isNameChar c = true := by
  unfold Payload.declarationName? at h
  dsimp only at h
  split at h
  · simp only [Option.some.injEq] at h
    rw [← h, String.toList_ofList] at hc
    exact List.all_eq_true.1 List.all_takeWhile c hc
  · simp at h

/-- The span of some cells begins at the first visible one, also when more cells follow. -/
theorem Cell.find?_of_span? {cells : List Cell} {start stop : Position}
    (h : span? cells = some (start, stop)) (more : List Cell) :
    ∃ first, (cells ++ more).find? isVisible = some first ∧ cells.find? isVisible = some first ∧
      first.position = start := by
  obtain ⟨first, -, hfirst, -, hposition, -⟩ := exists_of_span?_eq_some h
  rw [List.head?_filter] at hfirst
  exact ⟨first, by rw [List.find?_append, hfirst, Option.some_or], hfirst, hposition⟩

/-- Past the blanks a text goes on with its first visible character. -/
theorem Cell.head?_trimStart_text (cells : List Cell) :
    (Text.trimStart (text cells)).head? = (cells.find? isVisible).map Cell.char := by
  induction cells with
  | nil => rfl
  | cons cell cells ih =>
    cases hblank : Text.isBlank cell.char
    · simp [Text.trimStart, isVisible, hblank]
    · simpa [Text.trimStart, isVisible, hblank] using ih

/-- The first visible character of a lone `@` is the `@`. -/
theorem char_of_isAtSign {cells : List Cell} {first : Cell}
    (h : Payload.isAtSign (Cell.text cells) = true)
    (hfirst : cells.find? Cell.isVisible = some first) : first.char = '@' := by
  have htrim : Text.trimStart (Cell.text cells) = ['@'] := by
    simpa [Payload.isAtSign] using h
  have hhead := Cell.head?_trimStart_text cells
  rw [htrim, hfirst] at hhead
  simpa [eq_comm] using hhead

namespace Scan.State

/-- Every part of the state agrees with the text `cs` scanned so far. -/
structure Consistent (s : State) (cs : List Char) : Prop where
  /-- The next character follows the text. -/
  next : s.next = Position.start.advanceAll cs
  /-- What is pending are characters of the text, at their own positions and in order. -/
  pending : s.window.cells.Sublist (Cell.ofText .start cs)
  increasing : (s.window.cells.map Cell.position).Pairwise (· < ·)
  length_eq : s.window.text.length = (s.window.cells.map Cell.position).length
  /-- A declaration is open in a block only. It begins at the first visible character, and its name
  and a colon, with blanks before each, come first. -/
  property : ∀ t name, s.current = some t → t.kind = .property name → s.blocks ≠ [] ∧
    (∃ blanks gap rest, s.window.text = blanks ++ name.toList ++ gap ++ ':' :: rest ∧
      Text.allBlank blanks = true ∧ Text.allBlank gap = true) ∧
    (s.window.cells.find? Cell.isVisible).map Cell.position = some t.start
  /-- The first visible character of an open at-rule is its `@`. -/
  atRule : ∀ t, s.current = some t → t.kind = .atRule →
    s.window.cells.find? Cell.isVisible = some ⟨'@', t.start⟩
  /-- Open indentation is all that is pending. -/
  whitespace : ∀ t, s.current = some t → t.kind = .whitespace → s.comment = none ∧
    s.window.text ≠ [] ∧ Text.allBlank s.window.text = true ∧ s.window.start? = some t.start
  /-- An open comment begins with its opening at its offset and start, is not ended, and interrupts
  something exactly when a token is open or there is visible text before it. -/
  comment : ∀ k, s.comment = some k → ∃ before inside star,
    s.window.cells = before ++ ⟨'/', k.start⟩ :: ⟨'*', star⟩ :: inside ∧
    Text.byteSize (Cell.text before) = k.offset ∧ ¬ ['*', '/'] <:+: Cell.text inside ∧
    k.embedded = (s.current.isSome || !Text.allBlank (Cell.text before))

variable {s : State} {cs : List Char}

/-- An open token other than indentation begins the window, also around an open comment. -/
theorem Settled.begins (h : s.Settled cs) {t : OpenToken} (hcurrent : s.current = some t)
    (hkind : t.kind ≠ .whitespace) : t.Begins s.window.cells := by
  cases hk : s.comment with
  | none => exact h.coherent.current hk t hcurrent
  | some k =>
    obtain ⟨before, inside, slash, star, hcells, -, -, -, -, -, hbegins⟩ := h.coherent.comment k hk
    rw [hcells]
    exact (hbegins t hcurrent).2.append hkind _

/-- A settled state whose open comment is not ended is consistent. -/
theorem Settled.consistent (h : s.Settled cs)
    (hunended : ∀ k, s.comment = some k → k.Unended s.window.cells) : s.Consistent cs where
  next := h.next
  pending := h.cells
  increasing := by
    refine List.Pairwise.map _ ?_ h.ordered
    intro a b hab
    exact lt_of_lt_of_le a.position_lt_stop hab
  length_eq := by simp [Window.text, Cell.text]
  property t name hcurrent hkind := by
    have hbegins := h.begins hcurrent (by simp [hkind])
    simp only [OpenToken.Begins, hkind] at hbegins
    obtain ⟨head, rest, stop, hcells, hname, hspan⟩ := hbegins
    obtain ⟨blanks, gap, hhead, hblanks, hgap⟩ := exists_of_declarationName? hname
    obtain ⟨first, hfirst, -, hposition⟩ := Cell.find?_of_span? hspan rest
    refine ⟨h.coherent.inBlock t name hcurrent hkind, ⟨blanks, gap, Cell.text rest, ?_, hblanks,
      hgap⟩, ?_⟩
    · have htext : s.window.text = Cell.text head ++ Cell.text rest := by
        simp [Window.text, hcells]
      rw [htext, hhead]
      simp
    · rw [hcells, hfirst, Option.map_some, hposition]
  atRule t hcurrent hkind := by
    have hbegins := h.begins hcurrent (by simp [hkind])
    simp only [OpenToken.Begins, hkind] at hbegins
    obtain ⟨head, rest, stop, hcells, hsign, hspan⟩ := hbegins
    obtain ⟨first, hfirst, hhead, hposition⟩ := Cell.find?_of_span? hspan rest
    rw [hcells, hfirst, ← hposition, ← char_of_isAtSign hsign hhead]
  whitespace t hcurrent hkind := by
    have hcomment : s.comment = none := by
      cases hk : s.comment with
      | none => rfl
      | some k =>
        obtain ⟨before, inside, slash, star, -, -, -, -, -, -, hbegins⟩ :=
          h.coherent.comment k hk
        exact absurd hkind (hbegins t hcurrent).1
    obtain ⟨hblank, hstart⟩ :=
      (OpenToken.begins_whitespace_iff hkind).1 (h.coherent.current hcomment t hcurrent)
    obtain ⟨first, hfirst, hposition⟩ := Option.map_eq_some_iff.1 hstart
    refine ⟨hcomment, ?_, ?_, ?_⟩
    · rintro hnil
      have hempty : s.window.cells = [] := List.map_eq_nil_iff.1 hnil
      simp [hempty] at hfirst
    · simpa [Text.allBlank, Window.text, Cell.isVisible] using hblank
    · simpa [Window.start?, Window.cells] using hstart
  comment k hk := by
    obtain ⟨before, inside, slash, star, hcells, hslash, hstar, hsize, hstart, hembedded, -⟩ :=
      h.coherent.comment k hk
    obtain ⟨before', inside', slash', star', hcells', hsize', hnone⟩ := hunended k hk
    obtain ⟨-, hrest⟩ := Text.append_inj_of_byteSize (hcells.symm.trans hcells')
      (hsize.trans hsize'.symm)
    simp only [List.cons.injEq] at hrest
    refine ⟨before, inside, star.position, ?_, hsize, ?_, hembedded⟩
    · rw [hcells, ← hslash, ← hstart, ← hstar]
    · rw [hrest.2.2]
      exact hnone

end Scan.State

/-- After every part of a source that has been scanned the state agrees with that part. -/
theorem Source.consistent_after_take (source : Source) (n : Nat) :
    (Scan.State.after {} (source.characters.items.take n)).Consistent
      (source.characters.items.take n) :=
  (Scan.State.settled_after _).consistent (Scan.State.unended_after _)

end Stylesheet
