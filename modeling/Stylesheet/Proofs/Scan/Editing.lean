import Mathlib.Data.List.Induction
import Stylesheet.Proofs.Window
import Stylesheet.Scan.State

set_option autoImplicit false

/-! # Editing the window

The window takes in characters one by one and is cut at byte offsets, and the positions of its
characters go with it. `Edit` is one such change, made for whatever reason and with whatever offset.
The positions could just as well be kept in a sequence of their own, which has one entry per
character and is cut by counting characters (`Edit.beside`). `Editing.run` keeps one of these, and
another that holds the numbers of the edits which brought the characters in. Main statement
`Editing.faithful_run`: after any edits the window agrees with both sequences, and what it says
about its text is so. -/

namespace Stylesheet

/-- A cut does not depend on what is attached to the characters. -/
theorem Text.splitAtByte?_map {α : Type*} (char : α → Char) (offset : Nat) (xs : List α) :
    splitAtByte? id offset (xs.map char) = (splitAtByte? char offset xs).map
      fun (before, after) => (before.map char, after.map char) := by
  fun_induction splitAtByte? char offset xs with
  | case1 xs => simp [splitAtByte?]
  | case2 offset => simp [splitAtByte?]
  | case3 offset x xs hle ih => simp [splitAtByte?, hle, ih, Function.comp_def]
  | case4 offset x xs hlt => simp [splitAtByte?, hlt]

namespace Window

/-- The position at a byte offset is found by counting the characters before it. -/
theorem positionAt?_eq (w : Window) (offset : Nat) :
    w.positionAt? offset = (Text.splitAtByte? id offset w.text).bind fun (before, _) =>
      (w.cells.map Cell.position)[before.length]? := by
  rw [text, Cell.text, Text.splitAtByte?_map, positionAt?]
  cases hcut : Text.splitAtByte? Cell.char offset w.cells with
  | none => rfl
  | some cut =>
    obtain ⟨before, after⟩ := cut
    rw [← (Text.append_of_splitAtByte? hcut).1]
    cases after <;> simp

/-- Right before a cell stands its own position. -/
theorem positionAt?_of_cells {w : Window} {before after : List Cell} {cell : Cell}
    (hcells : w.cells = before ++ cell :: after) :
    w.positionAt? (Text.byteSize (Cell.text before)) = some cell.position := by
  rw [positionAt?, hcells, Cell.text, Text.splitAtByte?_append]

end Window

namespace Scan

/-! ## Edits -/

/-- A change to what is pending, or to the place in the source. -/
inductive Edit where
  | push (c : Char)
  | pushAgain (c : Char)
  | truncate (offset : Nat)
  | dropBefore (offset : Nat)
  | clear
  | advanceColumn
  | advanceLine
deriving DecidableEq, Repr

namespace Edit

/-- The character that comes in. -/
def char? : Edit → Option Char
  | push c | pushAgain c => some c
  | _ => none

/-- The state after an edit. -/
def apply (s : State) : Edit → State
  | push c => s.push c
  | pushAgain c => s.pushAgain c
  | truncate offset => { s with window := s.window.truncate offset }
  | dropBefore offset => { s with window := s.window.dropBefore offset }
  | clear => s.clearWindow
  | advanceColumn => s.advanceColumn
  | advanceLine => s.advanceLine

variable {α β : Type*}

/-- What an edit makes of a sequence that is kept beside the pending text `cs` and has one entry per
character: `x` is the entry of a character that comes in, and where the text is cut, the sequence is
cut at as many entries as characters stand before the cut. -/
def beside (cs : List Char) (x : α) (xs : List α) : Edit → List α
  | push _ | pushAgain _ => xs ++ [x]
  | truncate offset =>
    match Text.splitAtByte? id offset cs with
    | some (before, _) => xs.take before.length
    | none => xs
  | dropBefore offset =>
    match Text.splitAtByte? id offset cs with
    | some (before, _) => xs.drop before.length
    | none => xs
  | clear => []
  | advanceColumn | advanceLine => xs

variable (e : Edit) (cs : List Char)

theorem map_beside (f : α → β) (x : α) (xs : List α) :
    (e.beside cs x xs).map f = e.beside cs (f x) (xs.map f) := by
  cases e with
  | truncate offset | dropBefore offset =>
    simp only [beside]
    split <;> simp [List.map_take, List.map_drop]
  | _ => simp [beside]

/-- Without a character that comes in no entry does. -/
theorem beside_congr {x y : α} (h : e.char?.isSome → x = y) (xs : List α) :
    e.beside cs x xs = e.beside cs y xs := by
  cases e with
  | push c | pushAgain c => rw [h rfl]
  | _ => rfl

theorem beside_sublist (x : α) (xs : List α) : (e.beside cs x xs).Sublist (xs ++ [x]) := by
  have hself : xs.Sublist (xs ++ [x]) := List.sublist_append_left xs [x]
  cases e with
  | push c | pushAgain c => exact List.Sublist.refl _
  | truncate offset =>
    simp only [beside]
    split
    · exact (List.take_sublist _ _).trans hself
    · exact hself
  | dropBefore offset =>
    simp only [beside]
    split
    · exact (List.drop_sublist _ _).trans hself
    · exact hself
  | clear => exact List.nil_sublist _
  | advanceColumn | advanceLine => exact hself

/-- The cells of a window are themselves such a sequence: what comes in stands at the position of
the state. -/
theorem cells_apply (s : State) :
    (e.apply s).window.cells =
      e.beside s.window.text ⟨e.char?.getD default, (e.apply s).position⟩ s.window.cells := by
  have hcut (offset : Nat) := Text.splitAtByte?_map Cell.char offset s.window.cells
  cases e with
  | push c | pushAgain c => exact Window.cells_push _ _ _
  | truncate offset | dropBefore offset =>
    simp only [apply, beside, Window.truncate, Window.dropBefore, Window.text, hcut]
    cases hcells : Text.splitAtByte? Cell.char offset s.window.cells with
    | none => rfl
    | some cut =>
      obtain ⟨before, after⟩ := cut
      simp [← (Text.append_of_splitAtByte? hcells).1]
  | clear => rfl
  | advanceColumn | advanceLine => rfl

theorem sound_apply {s : State} (h : s.window.Sound) : (e.apply s).window.Sound := by
  cases e with
  | push c => exact h.push c s.next
  | pushAgain c => exact h.push c s.position
  | truncate offset => exact h.truncate offset
  | dropBefore offset => exact h.dropBefore offset
  | clear => exact Window.sound_empty
  | advanceColumn | advanceLine => exact h

end Edit

/-! ## A run of edits -/

/-- A state and what has been kept beside the pending text on the way to it. -/
structure Editing where
  state : State := {}
  /-- The positions of the pending characters. -/
  positions : List Position := []
  /-- The numbers of the edits that brought the pending characters in. -/
  numbers : List Nat := []
  /-- How many edits were made. -/
  count : Nat := 0

namespace Editing

/-- One more edit, with what is kept beside the text cut along with it. -/
def apply (r : Editing) (e : Edit) : Editing where
  state := e.apply r.state
  positions := e.beside r.state.window.text (e.apply r.state).position r.positions
  numbers := e.beside r.state.window.text r.count r.numbers
  count := r.count + 1

/-- The edits one after the other, from the beginning of a source. -/
def run (edits : List Edit) : Editing := edits.foldl apply {}

@[simp] theorem run_concat (edits : List Edit) (e : Edit) :
    run (edits ++ [e]) = (run edits).apply e := by
  simp [run]

theorem count_run (edits : List Edit) : (run edits).count = edits.length := by
  induction edits using List.reverseRecOn with
  | nil => rfl
  | append_singleton edits e ih => simp [apply, ih]

/-- The cell that an edit brought in, with the position at which the state stood then. -/
def cell? (edits : List Edit) (number : Nat) : Option Cell := do
  let e ← edits[number]?
  let c ← e.char?
  return ⟨c, (run (edits.take (number + 1))).state.position⟩

theorem cell?_concat_of_lt (edits : List Edit) (e : Edit) {number : Nat}
    (h : number < edits.length) : cell? (edits ++ [e]) number = cell? edits number := by
  simp [cell?, List.getElem?_append_left h, List.take_append_of_le_length h]

theorem cell?_concat_length (edits : List Edit) (e : Edit) :
    cell? (edits ++ [e]) edits.length =
      e.char?.map fun c => ⟨c, (run (edits ++ [e])).state.position⟩ := by
  cases hc : e.char? <;> simp [cell?, hc, List.take_of_length_le]

theorem numbers_concat_sublist (edits : List Edit) (e : Edit) :
    (run (edits ++ [e])).numbers.Sublist ((run edits).numbers ++ [edits.length]) := by
  rw [run_concat, ← count_run edits]
  exact e.beside_sublist _ _ _

/-! ## What holds after every edit -/

/-- The window of the run is sound, and what is kept beside its text belongs to its cells. -/
structure Kept (edits : List Edit) (r : Editing) : Prop where
  window : r.state.window.Sound
  positions : r.positions = r.state.window.cells.map Cell.position
  cells : r.state.window.cells.map some = r.numbers.map (cell? edits)
  numbers : r.numbers.Pairwise (· < ·)
  lt_length : ∀ number ∈ r.numbers, number < edits.length

/-- One more edit keeps everything together. -/
theorem Kept.concat {edits : List Edit} (h : Kept edits (run edits)) (e : Edit) :
    Kept (edits ++ [e]) (run (edits ++ [e])) where
  window := by
    rw [run_concat]
    exact e.sound_apply h.window
  positions := by
    rw [run_concat]
    show e.beside _ (e.apply _).position _ = (e.apply _).window.cells.map Cell.position
    rw [e.cells_apply, e.map_beside, h.positions]
  cells := by
    have hold : (run edits).numbers.map (cell? (edits ++ [e])) =
        (run edits).state.window.cells.map some := by
      rw [h.cells]
      exact List.map_congr_left fun number hnumber =>
        cell?_concat_of_lt edits e (h.lt_length number hnumber)
    have hnew := cell?_concat_length edits e
    rw [run_concat] at hnew ⊢
    show (e.apply _).window.cells.map some = (e.beside _ (run edits).count _).map _
    rw [e.cells_apply, e.map_beside, e.map_beside, hold, count_run, hnew]
    refine e.beside_congr _ ?_ _
    intro hsome
    obtain ⟨c, hc⟩ := Option.isSome_iff_exists.1 hsome
    simp [hc, apply]
  numbers := by
    have hgrow : ((run edits).numbers ++ [edits.length]).Pairwise (· < ·) :=
      List.pairwise_append.2 ⟨h.numbers, List.pairwise_singleton _ _, by simpa using h.lt_length⟩
    exact hgrow.sublist (numbers_concat_sublist edits e)
  lt_length := by
    intro number hnumber
    rw [List.length_append, List.length_singleton, Nat.lt_succ_iff]
    rcases List.mem_append.1 ((numbers_concat_sublist edits e).subset hnumber) with hold | hnew
    · exact Nat.le_of_lt (h.lt_length number hold)
    · exact Nat.le_of_eq (List.mem_singleton.1 hnew)

theorem kept_run (edits : List Edit) : Kept edits (run edits) := by
  induction edits using List.reverseRecOn with
  | nil => exact ⟨Window.sound_empty, rfl, rfl, .nil, by simp [run]⟩
  | append_singleton edits e ih => exact ih.concat e

/-- A pending cell was brought in by the edit of its number. -/
theorem Kept.exists_edit {edits : List Edit} {r : Editing} (h : Kept edits r) {i : Nat}
    {cell : Cell} (hcell : r.state.window.cells[i]? = some cell) :
    ∃ number e, r.numbers[i]? = some number ∧ edits[number]? = some e ∧
      e.char? = some cell.char ∧
      cell.position = (run (edits.take (number + 1))).state.position := by
  have hentry := congrArg (·[i]?) h.cells
  simp only [List.getElem?_map, hcell, Option.map_some] at hentry
  obtain ⟨number, hnumber, hsome⟩ := Option.map_eq_some_iff.1 hentry.symm
  simp only [cell?, Option.bind_eq_bind, Option.bind_eq_some_iff, Option.pure_def,
    Option.some.injEq] at hsome
  obtain ⟨e, he, c, hc, rfl⟩ := hsome
  exact ⟨number, e, hnumber, he, hc, rfl⟩

/-- What the window says about its text is so, and the positions it gives out are those at which the
characters came in. -/
structure Faithful (edits : List Edit) (r : Editing) : Prop where
  /-- There is one recorded position for every character. -/
  length : r.positions.length = r.state.window.text.length
  /-- The position at a byte offset is found by counting the characters before it. -/
  positionAt : ∀ offset, r.state.window.positionAt? offset =
    (Text.splitAtByte? id offset r.state.window.text).bind fun (before, _) =>
      r.positions[before.length]?
  /-- Right before a pending character, that is the position which the edit that brought the
  character in left the state at. -/
  pushed : ∀ before c after, r.state.window.text = before ++ c :: after →
    ∃ number e, r.numbers[before.length]? = some number ∧ edits[number]? = some e ∧
      e.char? = some c ∧ r.state.window.positionAt? (Text.byteSize before) =
        some (run (edits.take (number + 1))).state.position
  /-- Later characters come from later edits. -/
  numbers : r.numbers.Pairwise (· < ·)
  /-- Found out anew, what the window says about its text is the same. -/
  resummarize : r.state.window.resummarize = r.state.window
  bytes : r.state.window.bytes = Text.byteSize r.state.window.text
  blank : r.state.window.isBlank = true ↔ ∀ c ∈ r.state.window.text, Text.isBlank c = true
  lastBreak : ∀ offset, r.state.window.lineBreak = some offset ↔
    Text.IsLastBreak r.state.window.text offset
  noBreak : r.state.window.lineBreak = none ↔ '\n' ∉ r.state.window.text

/-- After any edits, at whatever offsets, what is recorded is right. -/
theorem faithful_run (edits : List Edit) : Faithful edits (run edits) where
  length := by simp [(kept_run edits).positions, Window.text, Cell.text]
  positionAt := by
    rw [(kept_run edits).positions]
    exact Window.positionAt?_eq _
  pushed := by
    intro before c after htext
    obtain ⟨front, rest, hcells, rfl, hrest⟩ := List.map_eq_append_iff.1 htext
    obtain ⟨cell, tail, rfl, rfl, rfl⟩ := List.map_eq_cons_iff.1 hrest
    have hcell : (run edits).state.window.cells[front.length]? = some cell := by simp [hcells]
    obtain ⟨number, e, hnumber, he, hc, hposition⟩ := (kept_run edits).exists_edit hcell
    refine ⟨number, e, by simpa using hnumber, he, hc, ?_⟩
    rw [← hposition]
    exact Window.positionAt?_of_cells hcells
  numbers := (kept_run edits).numbers
  resummarize := (kept_run edits).window.resummarize_eq
  bytes := (kept_run edits).window.bytes
  blank := (kept_run edits).window.isBlank_iff_text
  lastBreak _ := (kept_run edits).window.lineBreak_eq_some_iff
  noBreak := (kept_run edits).window.lineBreak_eq_none_iff

/-- A line break that was cut in two becomes whole again. -/
example : (run [.push '\r', .push '\n', .truncate 1, .push '\n']).state.window.lineBreak =
    some 0 := by decide

end Editing

end Scan

end Stylesheet
