set_option autoImplicit false

/-! # Source positions

A position is a line and a column, both counted from one; a column is one Unicode scalar value
wide. Positions are ordered by line first and by column within a line, so the two ends of a span
can be compared directly. A span `[start, stop)` is never empty: `Position.widen` moves a stop
that does not lie after its start one column past it. -/

namespace Stylesheet

structure Position where
  line : Nat
  column : Nat
deriving DecidableEq, Repr

namespace Position

/-- The position of the first character of a source. -/
def start : Position := ⟨1, 1⟩

instance : Inhabited Position := ⟨start⟩

/-- A position with both counts raised to at least one. -/
def clamped (line column : Nat) : Position := ⟨max line 1, max column 1⟩

/-! ## Moving -/

/-- `columns` further to the right on the same line. -/
def shift (p : Position) (columns : Nat) : Position := ⟨p.line, p.column + columns⟩

def nextColumn (p : Position) : Position := ⟨p.line, p.column + 1⟩

/-- The first column of the line below. -/
def nextLine (p : Position) : Position := ⟨p.line + 1, 1⟩

/-- The position right after the character `c` standing at `p`. -/
def advance (p : Position) (c : Char) : Position :=
  if c = '\n' then p.nextLine else p.nextColumn

/-- The position right after the text `cs` whose first character stands at `p`. -/
def advanceAll (p : Position) (cs : List Char) : Position := cs.foldl advance p

@[simp] theorem advanceAll_nil (p : Position) : p.advanceAll [] = p := rfl

@[simp] theorem advanceAll_cons (p : Position) (c : Char) (cs : List Char) :
    p.advanceAll (c :: cs) = (p.advance c).advanceAll cs := rfl

@[simp] theorem advanceAll_append (p : Position) (cs ds : List Char) :
    p.advanceAll (cs ++ ds) = (p.advanceAll cs).advanceAll ds := by
  simp [advanceAll, List.foldl_append]

/-! ## Order -/

instance : LT Position :=
  ⟨fun p q => p.line < q.line ∨ p.line = q.line ∧ p.column < q.column⟩

instance : LE Position :=
  ⟨fun p q => p.line < q.line ∨ p.line = q.line ∧ p.column ≤ q.column⟩

theorem lt_def (p q : Position) :
    p < q ↔ p.line < q.line ∨ p.line = q.line ∧ p.column < q.column := Iff.rfl

theorem le_def (p q : Position) :
    p ≤ q ↔ p.line < q.line ∨ p.line = q.line ∧ p.column ≤ q.column := Iff.rfl

instance (p q : Position) : Decidable (p < q) := decidable_of_iff' _ (lt_def p q)

instance (p q : Position) : Decidable (p ≤ q) := decidable_of_iff' _ (le_def p q)

instance : Ord Position :=
  ⟨fun p q => (compare p.line q.line).then (compare p.column q.column)⟩

theorem lt_nextColumn (p : Position) : p < p.nextColumn :=
  Or.inr ⟨rfl, Nat.lt_succ_self _⟩

theorem lt_advance (p : Position) (c : Char) : p < p.advance c := by
  unfold advance
  split
  · exact Or.inl (Nat.lt_succ_self _)
  · exact p.lt_nextColumn

theorem not_le_iff_lt (p q : Position) : ¬ q ≤ p ↔ p < q := by
  simp only [lt_def, le_def]
  omega

/-! ## Spans -/

/-- The stop of a span that begins at `start`: `stop` itself when it lies after `start`, and
otherwise one column past `start`. -/
def widen (start stop : Position) : Position :=
  if stop ≤ start then start.nextColumn else stop

theorem lt_widen (start stop : Position) : start < widen start stop := by
  unfold widen
  split
  · exact start.lt_nextColumn
  · next h => exact (not_le_iff_lt _ _).1 h

theorem widen_of_lt {start stop : Position} (h : start < stop) : widen start stop = stop := by
  unfold widen
  rw [if_neg ((not_le_iff_lt _ _).2 h)]

/-- `line:column`. -/
def toText (p : Position) : String := toString p.line ++ ":" ++ toString p.column

end Position

end Stylesheet
