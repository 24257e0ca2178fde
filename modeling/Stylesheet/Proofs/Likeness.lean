import Mathlib.Data.List.Forall2
import Mathlib.Data.Option.Basic
import Stylesheet.Proofs.Cell
import Stylesheet.Proofs.Token
import Stylesheet.Proofs.Window
import Stylesheet.Scan.Rule

set_option autoImplicit false

/-! # Likeness

Two runs over texts that are not the same can still go alike: they differ in positions, in numbers
and in the anchors of selectors, and in nothing else. A `Likeness` says which positions, numbers and
anchors correspond, and `Like` lifts it to everything that holds some: cells, windows, tokens,
findings and what is open. Links between tokens are left out, since the numbers determine them.

Nothing that is computed from texts alone can tell like things apart. That is the use of the lemmas
here, one for every operation on which scanning is built. -/

namespace Stylesheet

/-- Which positions, numbers and anchors of two runs correspond. Moving over a character, widening a
span, taking the next number and reading anchors off corresponding cells must respect it. -/
structure Likeness where
  position : Position → Position → Prop
  id : TokenId → TokenId → Prop
  anchors : List Anchor → List Anchor → Prop
  advance : ∀ {p q : Position} (c : Char), position p q → position (p.advance c) (q.advance c)
  widen : ∀ {p p' q q' : Position}, position p p' → position q q' →
    position (p.widen q) (p'.widen q')
  succ : ∀ {m n : TokenId}, id m n → id (m + 1) (n + 1)
  anchorsFrom : ∀ {cells cells' : List Cell} (first last : Nat),
    List.Forall₂ (fun a b : Cell => a.char = b.char ∧ position a.position b.position)
      cells cells' →
    anchors (Window.anchorsFrom first last 0 none cells)
      (Window.anchorsFrom first last 0 none cells')

variable {L : Likeness}

theorem Likeness.nextColumn {p q : Position} (h : L.position p q) :
    L.position p.nextColumn q.nextColumn :=
  L.advance ' ' h

/-! ## Lists -/

section Lists

universe u v

variable {α : Type u} {β : Type v} {R : α → β → Prop}

theorem rel_head? {as : List α} {bs : List β} (h : List.Forall₂ R as bs) :
    Option.Rel R as.head? bs.head? := by
  cases h with
  | nil => exact .none
  | cons hab _ => exact .some hab

theorem rel_getLast? {as : List α} {bs : List β} (h : List.Forall₂ R as bs) :
    Option.Rel R as.getLast? bs.getLast? := by
  rw [← List.head?_reverse, ← List.head?_reverse]
  exact rel_head? (List.rel_reverse h)

theorem rel_tail {as : List α} {bs : List β} (h : List.Forall₂ R as bs) :
    List.Forall₂ R as.tail bs.tail := by
  cases h with
  | nil => exact .nil
  | cons _ hrest => exact hrest

theorem rel_concat {as : List α} {bs : List β} (h : List.Forall₂ R as bs) {a : α} {b : β}
    (hab : R a b) : List.Forall₂ R (as ++ [a]) (bs ++ [b]) :=
  List.rel_append h (.cons hab .nil)

/-- Related options are both there or both missing. -/
theorem eq_none_or_some_of_rel {a : Option α} {b : Option β} (h : Option.Rel R a b) :
    a = none ∧ b = none ∨ ∃ x y, a = some x ∧ b = some y ∧ R x y := by
  cases h with
  | none => exact Or.inl ⟨rfl, rfl⟩
  | some hxy => exact Or.inr ⟨_, _, rfl, rfl, hxy⟩

theorem isSome_eq_of_rel {a : Option α} {b : Option β} (h : Option.Rel R a b) :
    a.isSome = b.isSome := by
  cases h <;> rfl

theorem eq_none_of_rel {a : Option α} {b : Option β} (h : Option.Rel R a b) (ha : a = none) :
    b = none := by
  subst ha
  cases h
  rfl

end Lists

/-! ## Cells and windows -/

/-- The same character at corresponding positions. -/
def Cell.Like (L : Likeness) (a b : Cell) : Prop :=
  a.char = b.char ∧ L.position a.position b.position

section Cells

variable {cells cells' : List Cell}

theorem Cell.text_eq_of_like (h : List.Forall₂ (Cell.Like L) cells cells') :
    Cell.text cells = Cell.text cells' := by
  induction h with
  | nil => rfl
  | cons hab _ ih => exact congrArg₂ List.cons hab.1 ih

/-- Corresponding cells have corresponding spans. -/
theorem Cell.span?_of_like (h : List.Forall₂ (Cell.Like L) cells cells') :
    Cell.span? cells = none ∧ Cell.span? cells' = none ∨
      ∃ start stop start' stop', Cell.span? cells = some (start, stop) ∧
        Cell.span? cells' = some (start', stop') ∧ L.position start start' ∧
        L.position stop stop' := by
  have hfilter := List.rel_filter (R := Cell.Like L)
    (p := fun cell => !Text.isBlank cell.char) (q := fun cell => !Text.isBlank cell.char)
    (fun a b hab => by simp [hab.1]) h
  unfold Cell.span?
  dsimp only
  rcases eq_none_or_some_of_rel (rel_head? hfilter) with
    ⟨hnone, hnone'⟩ | ⟨first, first', hfirst, hfirst', hfirsts⟩
  · exact Or.inl (by simp [hnone, hnone'])
  · rcases eq_none_or_some_of_rel (rel_getLast? hfilter) with
      ⟨hnone, hnone'⟩ | ⟨last, last', hlast, hlast', hlasts⟩
    · exact Or.inl (by simp [hnone, hnone'])
    · refine Or.inr ⟨_, _, _, _, ?_, ?_, hfirsts.2, Likeness.nextColumn hlasts.2⟩
      · rw [hfirst, hlast]
      · rw [hfirst', hlast']

/-- Corresponding cells are cut at the same bytes. -/
theorem Cell.splitAtByte?_of_like (h : List.Forall₂ (Cell.Like L) cells cells') (offset : Nat) :
    Option.Rel (fun a b : List Cell × List Cell =>
      List.Forall₂ (Cell.Like L) a.1 b.1 ∧ List.Forall₂ (Cell.Like L) a.2 b.2)
      (Text.splitAtByte? Cell.char offset cells) (Text.splitAtByte? Cell.char offset cells') := by
  fun_induction Text.splitAtByte? Cell.char offset cells generalizing cells' with
  | case1 cells =>
    rw [Text.splitAtByte?]
    exact .some ⟨.nil, h⟩
  | case2 =>
    cases h
    exact .none
  | case3 offset a cells hle ih =>
    cases h with
    | cons hab hrest =>
      rw [Text.splitAtByte?, ← hab.1, if_pos hle]
      rcases eq_none_or_some_of_rel (ih hrest) with
        ⟨hnone, hnone'⟩ | ⟨split, split', hsplit, hsplit', hsplits⟩
      · rw [hnone, hnone']
        exact .none
      · rw [hsplit, hsplit']
        exact .some ⟨.cons hab hsplits.1, hsplits.2⟩
  | case4 offset a cells hle =>
    cases h with
    | cons hab hrest =>
      rw [Text.splitAtByte?, ← hab.1, if_neg hle]
      exact .none

end Cells

namespace Window

/-- Sound windows with corresponding cells. -/
structure Like (L : Likeness) (w w' : Window) : Prop where
  cells : List.Forall₂ (Cell.Like L) w.cells w'.cells
  sound : w.Sound
  sound' : w'.Sound

theorem like_empty : Like L {} {} := ⟨.nil, sound_empty, sound_empty⟩

theorem like_ofCells {cells cells' : List Cell} (h : List.Forall₂ (Cell.Like L) cells cells') :
    Like L (ofCells cells) (ofCells cells') :=
  ⟨by simpa using h, sound_ofCells _, sound_ofCells _⟩

namespace Like

variable {w w' : Window} (h : Like L w w')

include h

theorem text_eq : w.text = w'.text := Cell.text_eq_of_like h.cells

theorem recent : List.Forall₂ (Cell.Like L) w.recent w'.recent :=
  List.forall₂_reverse_iff.1 h.cells

theorem body : List.Forall₂ (Cell.Like L) w.body w'.body := List.rel_reverse (rel_tail h.recent)

theorem bytes_eq : w.bytes = w'.bytes := (h.sound.summary_eq h.sound' h.text_eq).1

theorem isBlank_eq : w.isBlank = w'.isBlank := by
  rw [isBlank, isBlank, (h.sound.summary_eq h.sound' h.text_eq).2.1]

theorem lineBreak_eq : w.lineBreak = w'.lineBreak :=
  (h.sound.summary_eq h.sound' h.text_eq).2.2

theorem endsIn_eq (suffix : List Char) : w.endsIn suffix = w'.endsIn suffix := by
  rw [Bool.eq_iff_iff, endsIn_iff, endsIn_iff, h.text_eq]

theorem start? : Option.Rel L.position w.start? w'.start? := by
  unfold Window.start?
  rcases eq_none_or_some_of_rel (rel_getLast? h.recent) with
    ⟨hnone, hnone'⟩ | ⟨first, first', hfirst, hfirst', hfirsts⟩
  · rw [hnone, hnone']
    exact .none
  · rw [hfirst, hfirst']
    exact .some hfirsts.2

theorem push (c : Char) {p p' : Position} (hp : L.position p p') :
    Like L (w.push c p) (w'.push c p') where
  cells := by
    rw [cells_push, cells_push]
    exact rel_concat h.cells ⟨rfl, hp⟩
  sound := h.sound.push c p
  sound' := h.sound'.push c p'

theorem truncate (offset : Nat) : Like L (w.truncate offset) (w'.truncate offset) where
  cells := by
    rcases eq_none_or_some_of_rel (Cell.splitAtByte?_of_like h.cells offset) with
      ⟨hnone, hnone'⟩ | ⟨split, split', hsplit, hsplit', hsplits⟩
    · rw [Window.truncate, Window.truncate, hnone, hnone']
      exact h.cells
    · rw [Window.truncate, Window.truncate, hsplit, hsplit']
      simpa using hsplits.1
  sound := h.sound.truncate offset
  sound' := h.sound'.truncate offset

theorem dropBefore (offset : Nat) : Like L (w.dropBefore offset) (w'.dropBefore offset) where
  cells := by
    rcases eq_none_or_some_of_rel (Cell.splitAtByte?_of_like h.cells offset) with
      ⟨hnone, hnone'⟩ | ⟨split, split', hsplit, hsplit', hsplits⟩
    · rw [Window.dropBefore, Window.dropBefore, hnone, hnone']
      exact h.cells
    · rw [Window.dropBefore, Window.dropBefore, hsplit, hsplit']
      simpa using hsplits.2
  sound := h.sound.dropBefore offset
  sound' := h.sound'.dropBefore offset

theorem anchors (first last : Nat) : L.anchors (w.anchors first last) (w'.anchors first last) :=
  L.anchorsFrom first last h.cells

end Like

end Window

/-! ## Tokens and findings -/

/-- The same payload, up to the anchors of a selector. -/
inductive Leaf.Like (L : Likeness) : Leaf → Leaf → Prop
  | selector (text : String) {as bs : List Anchor} (h : L.anchors as bs) :
      Like L (.selector text as) (.selector text bs)
  | refl {content : Leaf} (h : content.type ≠ .selector) : Like L content content

/-- Corresponding numbers and spans; the links do not matter. -/
structure Placement.Like (L : Likeness) (p q : Placement) : Prop where
  id : L.id p.id q.id
  start : L.position p.start q.start
  stop : L.position p.stop q.stop

/-- The same tree of payloads at corresponding places. -/
inductive Token.Like (L : Likeness) : Token → Token → Prop
  | leaf {p q : Placement} {a b : Leaf} (hplace : p.Like L q) (hcontent : a.Like L b) :
      Like L (.leaf p a) (.leaf q b)
  | block {p q : Placement} {ts us : List Token} (hplace : p.Like L q)
      (hchildren : List.Forall₂ (Like L) ts us) : Like L (.block p ts) (.block q us)

theorem Leaf.Like.type_eq {a b : Leaf} (h : a.Like L b) : a.type = b.type := by
  cases h <;> rfl

namespace Token.Like

variable {t u : Token}

theorem place (h : t.Like L u) : t.place.Like L u.place := by
  cases h <;> assumption

theorem type_eq (h : t.Like L u) : t.type = u.type := by
  cases h with
  | leaf _ hcontent => exact hcontent.type_eq
  | block => rfl

theorem withPlace (h : t.Like L u) {p q : Placement} (hplace : p.Like L q) :
    (t.withPlace p).Like L (u.withPlace q) := by
  cases h with
  | leaf _ hcontent => exact .leaf hplace hcontent
  | block _ hchildren => exact .block hplace hchildren

theorem childOf (h : t.Like L u) (parent parent' : TokenId) (previous previous' : Option TokenId) :
    (t.childOf parent previous).Like L (u.childOf parent' previous') :=
  h.withPlace ⟨h.place.id, h.place.start, h.place.stop⟩

theorem linkedAfter (h : t.Like L u) (previous previous' : Option TokenId) :
    (t.linkedAfter previous).Like L (u.linkedAfter previous') :=
  h.withPlace ⟨h.place.id, h.place.start, h.place.stop⟩

theorem linkedAfter_childOf (h : t.Like L u) (previous previous' : Option TokenId)
    (parent : TokenId) : (t.linkedAfter previous).Like L (u.childOf parent previous') :=
  h.withPlace ⟨h.place.id, h.place.start, h.place.stop⟩

end Token.Like

section Build

variable {m n : TokenId} {start start' stop stop' : Position}

theorem like_ofLeaf {a b : Leaf} (hid : L.id m n) (hcontent : a.Like L b)
    (hstart : L.position start start') (hstop : L.position stop stop') :
    (Token.ofLeaf m a start stop).Like L (Token.ofLeaf n b start' stop') :=
  .leaf ⟨hid, hstart, L.widen hstart hstop⟩ hcontent

theorem like_ofChildren {ts us : List Token} (hid : L.id m n)
    (hchildren : List.Forall₂ (Token.Like L) ts us) (hstart : L.position start start')
    (hstop : L.position stop stop') :
    (Token.ofChildren m ts start stop).Like L (Token.ofChildren n us start' stop') :=
  .block ⟨hid, hstart, L.widen hstart hstop⟩ hchildren

end Build

/-- The same issue at corresponding places. -/
structure Finding.Like (L : Likeness) (f g : Finding) : Prop where
  issue_eq : f.issue = g.issue
  start : L.position f.start g.start
  stop : L.position f.stop g.stop

theorem like_spanning (issue : Issue) {start start' stop stop' : Position}
    (hstart : L.position start start') (hstop : L.position stop stop') :
    (Finding.spanning issue start stop).Like L (Finding.spanning issue start' stop') :=
  ⟨rfl, hstart, L.widen hstart hstop⟩

inductive Item.Like (L : Likeness) : Item → Item → Prop
  | token {t u : Token} (h : t.Like L u) : Like L (.token t) (.token u)
  | finding {f g : Finding} (h : f.Like L g) : Like L (.finding f) (.finding g)

/-! ## Open things -/

structure OpenToken.Like (L : Likeness) (o o' : OpenToken) : Prop where
  id : L.id o.id o'.id
  kind_eq : o.kind = o'.kind
  start : L.position o.start o'.start

theorem OpenToken.Like.close {o o' : OpenToken} (h : o.Like L o') {content : Leaf}
    (hcontent : content.type ≠ .selector) {stop stop' : Position}
    (hstop : L.position stop stop') : (o.close content stop).Like L (o'.close content stop') :=
  like_ofLeaf h.id (.refl hcontent) h.start hstop

structure OpenComment.Like (L : Likeness) (k k' : OpenComment) : Prop where
  offset_eq : k.offset = k'.offset
  id : L.id k.id k'.id
  start : L.position k.start k'.start
  embedded_eq : k.embedded = k'.embedded

theorem OpenComment.Like.close {k k' : OpenComment} (h : k.Like L k') (text : String)
    {stop stop' : Position} (hstop : L.position stop stop') :
    (k.close text stop).Like L (k'.close text stop') :=
  like_ofLeaf h.id (.refl (by simp [Leaf.type])) h.start hstop

structure OpenBlock.Like (L : Likeness) (b b' : OpenBlock) : Prop where
  id : L.id b.id b'.id
  start : L.position b.start b'.start
  headerStart : L.position b.headerStart b'.headerStart
  recent : List.Forall₂ (Token.Like L) b.recent b'.recent

namespace OpenBlock.Like

variable {b b' : OpenBlock} (h : b.Like L b')

include h

theorem add {t u : Token} (htu : t.Like L u) : (b.add t).Like L (b'.add u) :=
  ⟨h.id, h.start, h.headerStart, .cons (htu.childOf _ _ _ _) h.recent⟩

theorem close {stop stop' : Position} (hstop : L.position stop stop') :
    (b.close stop).Like L (b'.close stop') :=
  like_ofChildren h.id (List.rel_reverse h.recent) h.start hstop

end OpenBlock.Like

namespace Scan

inductive Outcome.Like (L : Likeness) : Outcome → Outcome → Prop
  | skip : Like L .skip .skip
  | consumed : Like L .consumed .consumed
  | token {t u : Token} (h : t.Like L u) : Like L (.token t) (.token u)
  | finding {f g : Finding} (h : f.Like L g) : Like L (.finding f) (.finding g)
  | recovered {t u : Token} {f g : Finding} (ht : t.Like L u) (hf : f.Like L g) :
      Like L (.recovered t f) (.recovered u g)

end Scan

end Stylesheet
