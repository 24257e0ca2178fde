import Stylesheet.Proofs.Likeness

set_option autoImplicit false

/-! # Text in another place

The same text can stand at the beginning of a source or after something else. `Position.moved` says
where a position of it comes to stand: everything on its first line is moved to the right, and the
lines below are only counted from another one. Moving over a character, comparing two positions and
looking for jumps between characters are the same in both places, so this is a likeness
(`Likeness.moved`). Tokens that are alike in this sense are the same once the positions of the first
are moved, up to numbers and links (`Token.unlinked_eq_of_like`). -/

namespace Stylesheet

/-! ## Positions -/

namespace Position

/-- Where `p` comes to stand when its text begins at `origin` and not at the start. -/
def moved (p origin : Position) : Position :=
  ⟨origin.line + p.line - 1, if p.line = 1 then origin.column + p.column - 1 else p.column⟩

/-- Both counts begin at one. -/
def Counted (p : Position) : Prop := 1 ≤ p.line ∧ 1 ≤ p.column

theorem Counted.advance {p : Position} (h : p.Counted) (c : Char) : (p.advance c).Counted := by
  unfold Position.advance
  split
  · exact ⟨Nat.le_add_left 1 p.line, Nat.le_refl 1⟩
  · exact ⟨h.1, Nat.le_add_left 1 p.column⟩

variable {origin p q : Position}

theorem moved_advance (hp : p.Counted) (c : Char) :
    (p.moved origin).advance c = (p.advance c).moved origin := by
  obtain ⟨hline, hcolumn⟩ := hp
  unfold Position.advance
  split
  · have hbelow : p.nextLine.line ≠ 1 := by
      simp only [nextLine]
      omega
    have hmoved :
        p.nextLine.moved origin = ⟨origin.line + p.nextLine.line - 1, p.nextLine.column⟩ := by
      rw [moved, if_neg hbelow]
    rw [hmoved]
    simp only [moved, nextLine, mk.injEq, and_true]
    omega
  · by_cases hfirst : p.line = 1
    · simp only [moved, nextColumn, hfirst, if_true, mk.injEq, true_and]
      omega
    · simp [moved, nextColumn, hfirst]

theorem moved_le_moved_iff (hp : p.Counted) (hq : q.Counted) :
    p.moved origin ≤ q.moved origin ↔ p ≤ q := by
  obtain ⟨hline, hcolumn⟩ := hp
  obtain ⟨hline', hcolumn'⟩ := hq
  simp only [moved, le_def]
  split <;> split <;> omega

theorem moved_inj (hp : p.Counted) (hq : q.Counted) : p.moved origin = q.moved origin ↔ p = q := by
  rw [le_antisymm_iff, moved_le_moved_iff hp hq, moved_le_moved_iff hq hp, ← le_antisymm_iff]

theorem moved_widen (hp : p.Counted) (hq : q.Counted) :
    (p.moved origin).widen (q.moved origin) = (p.widen q).moved origin := by
  unfold Position.widen
  simp only [moved_le_moved_iff hq hp]
  split
  · have hnext : (p.moved origin).advance ' ' = (p.advance ' ').moved origin :=
      moved_advance hp ' '
    simpa [Position.advance] using hnext
  · rfl

end Position

/-! ## The likeness -/

/-- The second position is where the first comes to stand. -/
def Position.IsMoved (origin p q : Position) : Prop := p.Counted ∧ q = p.moved origin

/-- The same offset at a position that has been moved. -/
def Anchor.IsMoved (origin : Position) (a b : Anchor) : Prop :=
  a.offset = b.offset ∧ Position.IsMoved origin a.position b.position

/-- The source jumps at the same characters of a text in both places. -/
theorem Window.anchorsFrom_isMoved {origin : Position} (first last : Nat) {cells cells' : List Cell}
    (h : List.Forall₂
      (fun a b : Cell => a.char = b.char ∧ Position.IsMoved origin a.position b.position)
      cells cells') (offset : Nat) {expected expected' : Option Position}
    (hexpected : Option.Rel (Position.IsMoved origin) expected expected') :
    List.Forall₂ (Anchor.IsMoved origin) (anchorsFrom first last offset expected cells)
      (anchorsFrom first last offset expected' cells') := by
  induction h generalizing offset expected expected' with
  | nil => exact .nil
  | @cons a b cells cells' hab _ ih =>
    obtain ⟨hchar, hcounted, hposition⟩ := hab
    have hnext : Position.IsMoved origin (a.position.advance a.char) (b.position.advance b.char) :=
      ⟨hcounted.advance _, by rw [← hchar, hposition, Position.moved_advance hcounted]⟩
    have hrest := ih (offset + a.char.utf8Size) (.some hnext)
    have hjump : (first ≤ offset ∧ expected.isSome ∧ expected ≠ some a.position) ↔
        (first ≤ offset ∧ expected'.isSome ∧ expected' ≠ some b.position) := by
      cases hexpected with
      | none => simp
      | some hp =>
        obtain ⟨hp, rfl⟩ := hp
        simp only [ne_eq, Option.some.injEq, hposition, Position.moved_inj hp hcounted,
          Option.isSome_some]
    simp only [anchorsFrom, ← hchar] at hrest ⊢
    split
    · exact .nil
    · by_cases hat : first ≤ offset ∧ expected.isSome ∧ expected ≠ some a.position
      · rw [if_pos hat, if_pos (hjump.1 hat)]
        exact .cons ⟨rfl, hcounted, hposition⟩ hrest
      · rw [if_neg hat, if_neg (mt hjump.2 hat)]
        exact hrest

/-- The same text at the start and at `origin`, with any numbers. -/
def Likeness.moved (origin : Position) : Likeness where
  position := Position.IsMoved origin
  id _ _ := True
  anchors := List.Forall₂ (Anchor.IsMoved origin)
  advance c h := ⟨h.1.advance c, by rw [h.2, Position.moved_advance h.1]⟩
  widen {p p' q q'} hp hq := by
    refine ⟨?_, by rw [hp.2, hq.2, Position.moved_widen hp.1 hq.1]⟩
    unfold Position.widen
    split
    · exact hp.1.advance ' '
    · exact hq.1
  succ _ := trivial
  anchorsFrom first last h := Window.anchorsFrom_isMoved first last h 0 .none

/-! ## Tokens -/

/-- The payload with the positions of its anchors changed. -/
def Leaf.relocated (f : Position → Position) : Leaf → Leaf
  | .selector text anchors => .selector text (anchors.map fun a => ⟨a.offset, f a.position⟩)
  | content => content

mutual

/-- The token with all its positions changed, and without its number and links. -/
def Token.relocated (f : Position → Position) : Token → Token
  | .leaf p content =>
    .leaf { id := 0, start := f p.start, stop := f p.stop } (content.relocated f)
  | .block p children =>
    .block { id := 0, start := f p.start, stop := f p.stop } (Token.relocatedAll f children)

/-- The same for a sequence of tokens. -/
def Token.relocatedAll (f : Position → Position) : List Token → List Token
  | [] => []
  | t :: ts => t.relocated f :: Token.relocatedAll f ts

end

/-- The token without its number and links, and so everything in it. -/
def Token.unlinked (t : Token) : Token := t.relocated fun p => p

section Tokens

variable {origin : Position}

theorem Leaf.relocated_eq_of_like {a b : Leaf} (h : a.Like (.moved origin) b) :
    b.relocated (fun p => p) = a.relocated (·.moved origin) := by
  cases h with
  | selector text hanchors =>
    simp only [Leaf.relocated, Leaf.selector.injEq, true_and]
    induction hanchors with
    | nil => rfl
    | cons hab _ ih => rw [List.map_cons, List.map_cons, ih, ← hab.1, hab.2.2]
  | refl hcontent =>
    cases a with
    | selector => simp [Leaf.type] at hcontent
    | _ => rfl

theorem Placement.relocated_eq_of_like {p q : Placement} (h : p.Like (.moved origin) q) :
    ({ id := 0, start := q.start, stop := q.stop } : Placement) =
      { id := 0, start := p.start.moved origin, stop := p.stop.moved origin } := by
  rw [← h.start.2, ← h.stop.2]

mutual

/-- Tokens that are alike are the same when those of the first text are moved. -/
theorem Token.unlinked_eq_of_like (t : Token) {u : Token} (h : t.Like (.moved origin) u) :
    u.unlinked = t.relocated (·.moved origin) := by
  cases h with
  | leaf hplace hcontent =>
    rw [Token.unlinked, Token.relocated, Token.relocated, Leaf.relocated_eq_of_like hcontent]
    exact congrArg₂ Token.leaf (Placement.relocated_eq_of_like hplace) rfl
  | block hplace hchildren =>
    rw [Token.unlinked, Token.relocated, Token.relocated,
      Token.relocatedAll_eq_of_like _ hchildren]
    exact congrArg₂ Token.block (Placement.relocated_eq_of_like hplace) rfl

theorem Token.relocatedAll_eq_of_like (ts : List Token) {us : List Token}
    (h : List.Forall₂ (Token.Like (.moved origin)) ts us) :
    Token.relocatedAll (fun p => p) us = Token.relocatedAll (·.moved origin) ts := by
  cases h with
  | nil => rfl
  | cons ht hts =>
    rw [Token.relocatedAll, Token.relocatedAll, ← Token.unlinked, Token.unlinked_eq_of_like _ ht,
      Token.relocatedAll_eq_of_like _ hts]

end

theorem Token.map_unlinked_eq_of_like {ts us : List Token}
    (h : List.Forall₂ (Token.Like (.moved origin)) ts us) :
    us.map Token.unlinked = ts.map (Token.relocated (·.moved origin)) := by
  induction h with
  | nil => rfl
  | cons ht _ ih => rw [List.map_cons, List.map_cons, ih, Token.unlinked_eq_of_like _ ht]

end Tokens

end Stylesheet
