import Stylesheet.Proofs.Scan.Coherence
import Stylesheet.Proofs.Token

set_option autoImplicit false

/-! # What a scan remembers of the past

Two things that a state remembers are about the past and no concern of the characters that follow:
which token was finished last, and whether the window begins with the source. The first is asked for
by the brace of a block only, about a token which that very brace has finished (`State.header?`); so
it does not outlive its character (`State.header?_arrive`). The second is asked for by blanks that
may become indentation; but blanks at the beginning of the source become indentation at once, so
later ones are never told that they are (`State.start?_arrive_ne`). -/

namespace Stylesheet.Scan

/-- The start of the selector or at-rule that the character being scanned has finished. -/
def State.header? (s : State) : Option Position :=
  s.completed.bind fun k =>
    if k.position = s.position ∧ (k.type = .selector ∨ k.type = .atRule) then some k.start else none

/-- A block begins with its header, or else with the unclaimed text before its brace. -/
theorem State.headerStart_eq (s : State) :
    s.headerStart =
      s.header?.getD (((Cell.span? s.window.body).map Prod.fst).getD s.position) := by
  cases hspan : Cell.span? s.window.body <;> cases hk : s.completed with
  | none => simp [headerStart, header?, hk, hspan]
  | some k =>
    by_cases hheader : k.position = s.position ∧ (k.type = .selector ∨ k.type = .atRule) <;>
      simp [headerStart, header?, hk, hspan, hheader]

section Past

variable {s s' : State} {cs : List Char} {c : Char} {rule : Rule} {outcome : Outcome}

/-! ## Finished tokens -/

/-- A blank finishes no token that hands it on. -/
theorem Claim.isBlank_eq_false (h : Claim s c rule outcome s') {u : Token}
    (hu : outcome.token? = some u) (hcontinues : State.continues u.type rule c = true) :
    Text.isBlank c = false := by
  cases h with
  | closeComment =>
    simp only [Outcome.token?, Option.some.injEq] at hu
    rw [← hu] at hcontinues
    simp [OpenComment.close, Leaf.type] at hcontinues
  | closeAtRule hk o hcurrent hkind hc =>
    rcases hc with rfl | rfl <;> decide
  | closeProperty hk hblocks o hcurrent name hkind hc =>
    rcases hc with rfl | rfl <;> decide
  | selector hk hc | closeBlock hk hcurrent hc | closeBlockAfter hk hcurrent hc =>
    rw [hc]
    decide
  | closeWhitespace hk o hcurrent hkind hc => exact hc
  | _ => simp [Outcome.token?] at hu

theorem completed_complete (s : State) (u : Token) :
    (s.complete u).2.completed = some ⟨u.id, u.type, u.start, s.position⟩ := by
  unfold State.complete State.accept
  dsimp only
  split <;> rfl

/-- The header that a character has finished is the token finished in the pass before. -/
theorem header?_pushAgain (s : State) (u : Token) (c : Char) :
    ((s.complete u).2.pushAgain c).header? =
      if u.type = .selector ∨ u.type = .atRule then some u.start else none := by
  simp [State.header?, State.pushAgain, completed_complete]

theorem Claim.completed_eq (h : Claim s c rule outcome s') : s'.completed = s.completed := by
  cases h <;> rfl

theorem State.preserves_completed (cs : List Char) (c : Char) :
    Preserves c
      (fun _ s => s.Offered cs c ∧ ∀ k, s.completed = some k → k.position < s.next)
      (fun _ s => s.OfferedAgain cs c ∧ ∀ k, s.completed = some k → k.position < s.next)
      (fun _ s => ∀ k, s.completed = some k → k.position < s.next) where
  last h := h.1.last
  first_of_again h := ⟨h.1.toOffered, h.2⟩
  done_of_again h := h.2
  done_of_skip h _ := h.2
  done_of_claim h hclaim _ := by
    rw [hclaim.completed_eq, hclaim.next_eq]
    exact h.2
  done_of_token h hclaim _ _ := by
    rw [completed_complete, next_complete, hclaim.position_eq, hclaim.next_eq]
    rintro k ⟨rfl⟩
    exact h.1.position_lt_next
  again_of_token h hclaim ht _ := by
    refine ⟨hclaim.offeredAgain h.1 ht, ?_⟩
    simp only [pushAgain, completed_complete, next_complete, hclaim.position_eq, hclaim.next_eq]
    rintro k ⟨rfl⟩
    exact h.1.position_lt_next

/-- The token finished last was finished before the next character. -/
theorem State.completed_lt_next (cs : List Char) :
    ∀ k, (State.after {} cs).completed = some k → k.position < (State.after {} cs).next := by
  induction cs using List.reverseRecOn with
  | nil => simp
  | append_singleton cs c ih =>
    rw [after_concat]
    refine (preserves_completed cs c).scan [] ⟨(settled_after cs).arrive c, ?_⟩
    intro k hk
    exact lt_trans (ih k hk) ((State.after {} cs).next.lt_advance c)

/-- A new character has finished no header yet. -/
theorem State.header?_arrive (cs : List Char) (c : Char) :
    ((State.after {} cs).arrive c).header? = none := by
  cases hk : (State.after {} cs).completed with
  | none => simp [header?, arrive, hk]
  | some k =>
    have hne := ne_of_lt (completed_lt_next cs k hk)
    simp [header?, arrive, hk, hne]

/-! ## The beginning of the source -/

/-- Of the cells, one at the beginning of the source is visible, or belongs to indentation. -/
def State.BlankStart (s : State) (cells : List Cell) : Prop :=
  ∀ cell ∈ cells, cell.position = .start →
    cell.isVisible = true ∨ ∃ o, s.current = some o ∧ o.kind = .whitespace

theorem State.Offered.blankStart (hs : s.Offered cs c) (hbody : s.BlankStart s.window.body)
    (hc : Text.isBlank c = false ∨ cs ≠ []) : s.BlankStart s.window.cells := by
  intro cell hcell hstart
  rw [hs.cells] at hcell
  rcases List.mem_append.1 hcell with hcell | hcell
  · exact hbody cell hcell hstart
  · rw [List.mem_singleton.1 hcell] at hstart ⊢
    rcases hc with hc | hne
    · exact Or.inl (by simp [Cell.isVisible, hc])
    · -- later characters stand after the beginning
      obtain ⟨first, rest, rfl⟩ := List.exists_cons_of_ne_nil hne
      have hlt : Position.start < s.position := by
        rw [hs.position, Position.advanceAll_cons]
        exact lt_of_lt_of_le (Position.lt_advance _ _) (Position.le_advanceAll _ _)
      exact absurd hstart (ne_of_gt hlt)

/-- What is claimed without finishing a token leaves no blank at the beginning of the source. -/
theorem Claim.blankStart (hs : s.Offered cs c) (h : Claim s c rule outcome s')
    (hbody : s.BlankStart s.window.body) (ht : outcome.token? = none) :
    s'.BlankStart s'.window.cells := by
  have hne (hcell : s.window.body ≠ []) : cs ≠ [] := by
    rintro rfl
    exact hcell (List.sublist_nil.1 hs.body)
  have hempty (s' : State) (hw : s'.window = {}) : s'.BlankStart s'.window.cells := by
    simp [State.BlankStart, hw, Window.cells]
  have hopened (hcurrent : s.current = none) (hc : Text.isBlank c = false) (kind : OpenKind)
      (start : Position) : (s.openToken kind start).BlankStart s.window.cells := by
    intro cell hcell hstart
    rcases hs.blankStart hbody (Or.inl hc) cell hcell hstart with hvisible | ⟨o, ho, -⟩
    · exact Or.inl hvisible
    · simp [hcurrent] at ho
  cases h with
  | inComment k hk =>
    obtain ⟨before, inside, slash, star, hcells, -⟩ := hs.coherent.comment k hk
    exact hs.blankStart hbody (Or.inr (hne (by simp [hcells])))
  | stripComment k hk =>
    obtain ⟨before, inside, slash, star, hcells, -⟩ := hs.coherent.comment k hk
    obtain ⟨front, rest, hcells', hcut, -, -⟩ := (hs.coherent.comment k hk).truncate hs.cells
    intro cell hcell hstart
    rw [hcut] at hcell
    refine hs.blankStart hbody (Or.inr (hne (by simp [hcells]))) cell ?_ hstart
    rw [hcells']
    exact List.mem_append_left _ hcell
  | openComment hk star slash before hrecent =>
    exact hs.blankStart hbody (Or.inr (hne (by simp [Window.body, hrecent])))
  | openAtRule hk hcurrent hc =>
    subst hc
    exact hopened hcurrent (by decide) _ _
  | openProperty hk hblocks hcurrent hc =>
    subst hc
    exact hopened hcurrent (by decide) _ _
  | openWhitespace => exact fun cell _ _ => Or.inr ⟨_, rfl, rfl⟩
  | inWhitespace hk o hcurrent hkind => exact fun cell _ _ => Or.inr ⟨o, hcurrent, hkind⟩
  | rejectBlank | rejectContent | strayBrace | strayContent | openBlock | openUnclaimed =>
    exact hempty _ rfl
  | _ => simp [Outcome.token?] at ht

/-- A blank at the beginning of the source does not pass unclaimed. -/
theorem State.Offered.isBlank_eq_false (hs : s.Offered [] c)
    (hskip : ∀ rule ∈ Rule.order.tail, rule.scan s = (.skip, s)) : Text.isBlank c = false := by
  by_contra hblank
  rw [Bool.not_eq_false] at hblank
  have hbody : s.window.body = [] := List.sublist_nil.1 hs.body
  have hcells : s.window.cells = [⟨c, .start⟩] := by
    rw [hs.cells, hbody, hs.position]
    rfl
  have hcomment := hs.comment_eq_none (hskip .comment (by decide))
  have hcurrent : s.current = none := by
    cases ho : s.current with
    | none => rfl
    | some o =>
      obtain ⟨⟨cell, hcell, -⟩, -⟩ :=
        (hs.coherent.current hcomment o ho).exists_cell hs.ordered_body
      simp [hbody] at hcell
  have hwindow : s.window.isBlank = true := hs.window.isBlank_iff.2 (by simp [hcells, hblank])
  have hstart : s.window.start? = some .start := by
    have hrecent : s.window.recent = [⟨c, .start⟩] := by
      rw [← List.reverse_reverse s.window.recent]
      exact congrArg List.reverse hcells
    simp [Window.start?, hrecent]
  have hscan := hskip .whitespace (by decide)
  simp only [Rule.scan, hs.last, hcomment, scanWhitespace, hcurrent, beginWhitespace, hblank,
    hwindow, hstart] at hscan
  cases hbreak : s.window.lineBreak <;> simp [hbreak] at hscan

theorem State.preserves_blankStart (cs : List Char) (c : Char) :
    Preserves c (fun _ s => s.Offered cs c ∧ s.BlankStart s.window.body)
      (fun _ s => s.OfferedAgain cs c ∧ Text.isBlank c = false)
      (fun _ s => s.BlankStart s.window.cells) where
  last h := h.1.last
  first_of_again h := ⟨h.1.toOffered, by simp [BlankStart, h.1.body_eq_nil]⟩
  done_of_again h := h.1.blankStart (by simp [BlankStart, h.1.body_eq_nil]) (Or.inl h.2)
  done_of_skip h hskip := by
    by_cases hcs : cs = []
    · subst hcs
      exact h.1.blankStart h.2 (Or.inl (h.1.isBlank_eq_false hskip))
    · exact h.1.blankStart h.2 (Or.inr hcs)
  done_of_claim h hclaim ht := hclaim.blankStart h.1 h.2 ht
  done_of_token _ _ _ _ := by simp [BlankStart, Window.cells]
  again_of_token h hclaim ht hcontinues :=
    ⟨hclaim.offeredAgain h.1 ht, hclaim.isBlank_eq_false ht hcontinues⟩

theorem State.blankStart_after (cs : List Char) :
    (State.after {} cs).BlankStart (State.after {} cs).window.cells := by
  induction cs using List.reverseRecOn with
  | nil => simp [BlankStart, Window.cells]
  | append_singleton cs c ih =>
    rw [after_concat]
    exact (preserves_blankStart cs c).scan [] ⟨(settled_after cs).arrive c, ih⟩

/-- After the first character no blanks that may become indentation begin the source. -/
theorem State.start?_arrive_ne (hcs : cs ≠ []) (c : Char)
    (hcurrent : (State.after {} cs).current = none)
    (hblank : ((State.after {} cs).arrive c).window.isBlank = true) :
    ((State.after {} cs).arrive c).window.start? ≠ some .start := by
  intro hstart
  have hs := (settled_after cs).arrive c
  obtain ⟨first, hfirst, hposition⟩ := Option.map_eq_some_iff.1 hstart
  have hcell : first ∈ ((State.after {} cs).arrive c).window.cells :=
    List.mem_reverse.2 (List.mem_of_getLast? hfirst)
  rcases hs.blankStart (blankStart_after cs) (Or.inr hcs) first hcell hposition with
    hvisible | ⟨o, ho, -⟩
  · simp [Cell.isVisible, hs.window.isBlank_iff.1 hblank first hcell] at hvisible
  · simp [arrive, hcurrent] at ho

end Past

end Stylesheet.Scan
