import Mathlib.Order.Monotone.Basic
import Stylesheet.Proofs.Breaks.Text

set_option autoImplicit false

/-! # Windows with line breaks of two characters

`Window.crlf` is the window that holds the same text with its line feeds written as pairs. The
carriage return of a pair stands where the line feed stood, so every visible character keeps its
position. Byte offsets grow by the line feeds in front of them (`Text.crlfOffset`), and with offsets
counted anew cutting a window, its last line break and its anchors are those of the window it is
made from. -/

namespace Stylesheet

namespace Text

universe u

variable {α : Type u}

/-! ## Offsets -/

/-- The byte of the text with line breaks of two characters that corresponds to byte `n` of the
text. -/
def crlfOffset : List Char → Nat → Nat
  | [], n => n
  | c :: cs, n =>
    if n < c.utf8Size then n else byteSize (crlfChar c) + crlfOffset cs (n - c.utf8Size)

theorem utf8Size_le_crlfChar (c : Char) : c.utf8Size ≤ byteSize (crlfChar c) := by
  unfold crlfChar
  split
  · next h =>
    subst h
    decide
  · simp

@[simp] theorem crlfOffset_zero (cs : List Char) : crlfOffset cs 0 = 0 := by
  cases cs with
  | nil => rfl
  | cons c cs => rw [crlfOffset, if_pos c.utf8Size_pos]

theorem byteSize_crlf_cons (c : Char) (cs : List Char) :
    byteSize (crlf (c :: cs)) = byteSize (crlfChar c) + byteSize (crlf cs) := by
  rw [crlf_cons, byteSize_append]

theorem crlfOffset_append_add (cs ds : List Char) (n : Nat) :
    crlfOffset (cs ++ ds) (byteSize cs + n) = byteSize (crlf cs) + crlfOffset ds n := by
  induction cs with
  | nil => simp
  | cons c cs ih =>
    have hrest : c.utf8Size + byteSize cs + n - c.utf8Size = byteSize cs + n := by omega
    rw [List.cons_append, byteSize_cons, crlfOffset, if_neg (by omega), hrest, ih,
      byteSize_crlf_cons]
    omega

/-- The beginning of a text is as long as the beginning of the text in the other spelling. -/
@[simp] theorem crlfOffset_byteSize (cs ds : List Char) :
    crlfOffset (cs ++ ds) (byteSize cs) = byteSize (crlf cs) := by
  simpa using crlfOffset_append_add cs ds 0

theorem crlfOffset_append_of_le {cs : List Char} {n : Nat} (h : n ≤ byteSize cs)
    (ds : List Char) : crlfOffset (cs ++ ds) n = crlfOffset cs n := by
  induction cs generalizing n with
  | nil =>
    have hzero : n = 0 := by simpa using h
    simp [hzero]
  | cons c cs ih =>
    rw [byteSize_cons] at h
    rw [List.cons_append, crlfOffset, crlfOffset]
    split
    · rfl
    · rw [ih (by omega)]

theorem strictMono_crlfOffset (cs : List Char) : StrictMono (crlfOffset cs) := by
  induction cs with
  | nil => exact strictMono_id
  | cons c cs ih =>
    intro m n hlt
    have hsize := utf8Size_le_crlfChar c
    rw [crlfOffset, crlfOffset]
    split
    · split
      · exact hlt
      · omega
    · rw [if_neg (by omega)]
      have := ih (show m - c.utf8Size < n - c.utf8Size by omega)
      omega

/-! ## Cutting -/

theorem splitAtByte?_cons_add (char : α → Char) (x : α) (xs : List α) (n : Nat) :
    splitAtByte? char ((char x).utf8Size + n) (x :: xs) =
      (splitAtByte? char n xs).map fun (before, after) => (x :: before, after) := by
  have hpos := (char x).utf8Size_pos
  obtain ⟨k, hk⟩ : ∃ k, (char x).utf8Size + n = k + 1 :=
    ⟨_, (Nat.succ_pred_eq_of_pos (by omega)).symm⟩
  have hrest : k + 1 - (char x).utf8Size = n := by omega
  rw [hk, splitAtByte?, if_pos (by omega), hrest]

theorem splitAtByte?_append_add (char : α → Char) (front xs : List α) (n : Nat) :
    splitAtByte? char (byteSize (front.map char) + n) (front ++ xs) =
      (splitAtByte? char n xs).map fun (before, after) => (front ++ before, after) := by
  induction front with
  | nil =>
    simp only [List.map_nil, byteSize_nil, Nat.zero_add, List.nil_append]
    exact Option.map_id.symm ▸ rfl
  | cons x front ih =>
    rw [List.map_cons, byteSize_cons, Nat.add_assoc, List.cons_append, splitAtByte?_cons_add, ih,
      Option.map_map]
    rfl

/-- Cutting a text in either spelling is the same, with offsets counted anew. The elements of the
text are spelled as their characters are. -/
theorem splitAtByte?_crlf (char : α → Char) (spell : α → List α)
    (hspell : ∀ x, (spell x).map char = crlfChar (char x)) (xs : List α) (n : Nat) :
    splitAtByte? char (crlfOffset (xs.map char) n) (xs.flatMap spell) =
      (splitAtByte? char n xs).map (Prod.map (List.flatMap spell) (List.flatMap spell)) := by
  induction xs generalizing n with
  | nil => cases n <;> rfl
  | cons x xs ih =>
    rw [List.map_cons, crlfOffset, List.flatMap_cons]
    split
    · next hlt =>
      cases n with
      | zero => simp [splitAtByte?]
      | succ n =>
        -- a character of several bytes is no line feed
        have hne : char x ≠ '\n' := by
          intro hx
          rw [hx, show Char.utf8Size '\n' = 1 from rfl] at hlt
          omega
        have hone : (spell x).map char = [char x] := by rw [hspell, crlfChar, if_neg hne]
        obtain ⟨y, hy, hchar⟩ := List.map_eq_singleton_iff.1 hone
        rw [hy, List.singleton_append, splitAtByte?, hchar, if_neg (by omega), splitAtByte?,
          if_neg (by omega), Option.map_none]
    · next hle =>
      obtain ⟨m, rfl⟩ : ∃ m, n = (char x).utf8Size + m := ⟨n - (char x).utf8Size, by omega⟩
      have hrest : (char x).utf8Size + m - (char x).utf8Size = m := by omega
      rw [← hspell, splitAtByte?_append_add, hrest, ih, splitAtByte?_cons_add, Option.map_map,
        Option.map_map]
      rfl

theorem slice?_crlf (cs : List Char) {first last : Nat} (h : first ≤ last) :
    slice? (crlfOffset cs first) (crlfOffset cs last) (crlf cs) =
      (slice? first last cs).map crlf := by
  have hcut (ds : List Char) (n : Nat) : splitAtByte? id (crlfOffset ds n) (crlf ds) =
      (splitAtByte? id n ds).map (Prod.map crlf crlf) := by
    have hsplit := splitAtByte?_crlf id crlfChar (fun c => by simp) ds n
    rw [List.map_id] at hsplit
    exact hsplit
  unfold slice?
  rw [hcut]
  cases hsplit : splitAtByte? id last cs with
  | none => rfl
  | some parts =>
    obtain ⟨before, after⟩ := parts
    obtain ⟨rfl, hsize⟩ := append_of_splitAtByte? hsplit
    rw [List.map_id] at hsize
    simp only [Option.map_some, Prod.map_apply, Option.bind_eq_bind, Option.bind_some]
    rw [crlfOffset_append_of_le (by omega), hcut]
    cases splitAtByte? id first before <;> rfl

end Text

/-! ## Cells -/

namespace Cell

/-- A cell in the spelling with line breaks of two characters. -/
def spelled (cell : Cell) : List Cell :=
  if cell.char = '\n' then [⟨'\r', cell.position⟩, ⟨'\n', cell.position.nextColumn⟩] else [cell]

/-- The cells in the spelling with line breaks of two characters. -/
def crlf (cells : List Cell) : List Cell := cells.flatMap spelled

@[simp] theorem crlf_append (cells more : List Cell) :
    crlf (cells ++ more) = crlf cells ++ crlf more :=
  List.flatMap_append

theorem crlf_singleton {cell : Cell} (h : cell.char ≠ '\n') : crlf [cell] = [cell] := by
  simp [crlf, spelled, h]

theorem text_spelled (cell : Cell) : text (spelled cell) = Text.crlfChar cell.char := by
  unfold spelled Text.crlfChar
  split <;> rfl

@[simp] theorem text_crlf (cells : List Cell) : text (crlf cells) = Text.crlf (text cells) := by
  simp only [text, crlf, Text.crlf, List.map_flatMap, List.flatMap_map]
  exact congrArg (List.flatMap · cells) (funext text_spelled)

/-- The same cells are visible in both spellings. -/
theorem filter_crlf (cells : List Cell) :
    (crlf cells).filter (fun cell => !Text.isBlank cell.char) =
      cells.filter fun cell => !Text.isBlank cell.char := by
  have hr : Text.isBlank '\r' = true := by decide
  have hn : Text.isBlank '\n' = true := by decide
  induction cells with
  | nil => rfl
  | cons cell cells ih =>
    rw [crlf, List.flatMap_cons, List.filter_append, ← crlf, ih, spelled]
    split
    · next hc => simp [hc, hr, hn]
    · rw [← List.filter_append, List.singleton_append]

@[simp] theorem span?_crlf (cells : List Cell) : span? (crlf cells) = span? cells := by
  rw [span?, filter_crlf, span?]

theorem head?_crlf (cells : List Cell) :
    (crlf cells).head?.map position = cells.head?.map position := by
  cases cells with
  | nil => rfl
  | cons cell cells =>
    rw [crlf, List.flatMap_cons, spelled]
    split <;> rfl

end Cell

/-! ## Windows -/

namespace Window

/-- The window in the spelling with line breaks of two characters. -/
def crlf (w : Window) : Window := ofCells (Cell.crlf w.cells)

variable (w : Window)

@[simp] theorem cells_crlf : w.crlf.cells = Cell.crlf w.cells := cells_ofCells _

@[simp] theorem text_crlf : w.crlf.text = Text.crlf w.text := by
  rw [text, cells_crlf, Cell.text_crlf, text]

theorem sound_crlf : w.crlf.Sound := sound_ofCells _

theorem bytes_crlf : w.crlf.bytes = Text.byteSize (Text.crlf w.text) := by
  rw [w.sound_crlf.bytes, text_crlf]

@[simp] theorem crlf_empty : ({} : Window).crlf = {} := rfl

theorem isBlank_crlf {w : Window} (hw : w.Sound) : w.crlf.isBlank = w.isBlank := by
  rw [isBlank, isBlank, w.sound_crlf.hasText, hw.hasText, text_crlf, Text.allBlank_crlf]

theorem start?_crlf : w.crlf.start? = w.start? := by
  have hhead (v : Window) : v.start? = v.cells.head?.map Cell.position := by
    simp [start?, cells]
  rw [hhead, hhead, cells_crlf, Cell.head?_crlf]

/-- A window that ends in a visible character or a blank other than a line feed. -/
theorem crlf_push {c : Char} (hc : c ≠ '\n') (p : Position) :
    (w.push c p).crlf = w.crlf.push c p := by
  refine (sound_crlf _).eq_of_cells (w.sound_crlf.push c p) ?_
  rw [cells_crlf, cells_push, cells_push, cells_crlf, Cell.crlf_append, Cell.crlf_singleton hc]

theorem crlf_push_lineFeed (p : Position) :
    (w.push '\n' p).crlf = (w.crlf.push '\r' p).push '\n' p.nextColumn := by
  refine (sound_crlf _).eq_of_cells ((w.sound_crlf.push '\r' p).push '\n' p.nextColumn) ?_
  simp [Cell.crlf, Cell.spelled]

theorem truncate_crlf (offset : Nat) :
    w.crlf.truncate (Text.crlfOffset w.text offset) = (w.truncate offset).crlf := by
  refine (w.sound_crlf.truncate _).eq_of_cells (sound_crlf _) ?_
  rw [cells_crlf, truncate, truncate, cells_crlf, Cell.crlf, text,
    Text.splitAtByte?_crlf Cell.char _ Cell.text_spelled]
  cases Text.splitAtByte? Cell.char offset w.cells with
  | none => exact w.cells_crlf
  | some parts => simp [Cell.crlf]

theorem dropBefore_crlf (offset : Nat) :
    w.crlf.dropBefore (Text.crlfOffset w.text offset) = (w.dropBefore offset).crlf := by
  refine (w.sound_crlf.dropBefore _).eq_of_cells (sound_crlf _) ?_
  rw [cells_crlf, dropBefore, dropBefore, cells_crlf, Cell.crlf, text,
    Text.splitAtByte?_crlf Cell.char _ Cell.text_spelled]
  cases Text.splitAtByte? Cell.char offset w.cells with
  | none => exact w.cells_crlf
  | some parts => simp [Cell.crlf]

/-- The text of a comment in the window, from its opening up to some end, is the same. -/
theorem cleanComment_crlf {w : Window} (hw : w.Sound) {before inside after : List Char}
    (htext : w.text = before ++ ['/', '*'] ++ inside ++ after) (hafter : '\n' ∉ after)
    {offset : Nat} (hoffset : Text.byteSize before = offset) :
    Payload.cleanComment ((Text.slice? (Text.crlfOffset w.text offset + 2)
        (w.crlf.bytes - Text.byteSize after) w.crlf.text).getD []) =
      Payload.cleanComment
        ((Text.slice? (offset + 2) (w.bytes - Text.byteSize after) w.text).getD []) := by
  have htext' : w.crlf.text =
      Text.crlf before ++ ['/', '*'] ++ Text.crlf inside ++ after := by
    rw [text_crlf, htext]
    simp [Text.crlf_cons_of_ne, Text.crlf_eq_self hafter]
  have hoffset' : Text.crlfOffset w.text offset = Text.byteSize (Text.crlf before) := by
    rw [htext, ← hoffset, List.append_assoc, List.append_assoc, Text.crlfOffset_byteSize]
  rw [hoffset', Text.slice?_of_comment w.sound_crlf.bytes htext', ← hoffset,
    Text.slice?_of_comment hw.bytes htext, Option.getD_some, Option.getD_some,
    Payload.cleanComment_crlf]

/-- The last line break is the same, when every line break of the window is a line feed. -/
theorem lineBreak_crlf {w : Window} (hw : w.Sound) (hr : '\r' ∉ w.text) :
    w.crlf.lineBreak = w.lineBreak.map (Text.crlfOffset w.text) := by
  cases hbreak : w.lineBreak with
  | none =>
    cases hbreak' : w.crlf.lineBreak with
    | none => rfl
    | some offset =>
      have hmem := w.sound_crlf.mem_text hbreak'
      rw [text_crlf, Text.mem_crlf_iff (by decide)] at hmem
      exact absurd hmem (hw.noBreak hbreak)
  | some offset =>
    obtain ⟨before, after, hafter, rfl, ⟨htext, -⟩ | htext⟩ := hw.lastBreak offset hbreak
    · rw [Option.map_some, htext, Text.crlfOffset_byteSize]
      refine w.sound_crlf.lineBreak_eq_some ⟨Text.crlf before, after, hafter, rfl, Or.inr ?_⟩
      rw [text_crlf, htext, Text.crlf_append, Text.crlf_lineFeed, Text.crlf_eq_self hafter]
    · simp [htext] at hr

end Window

/-! ## Anchors -/

/-- The anchor of a text in the spelling with line breaks of two characters. -/
def Anchor.crlf (text : List Char) (a : Anchor) : Anchor :=
  ⟨Text.crlfOffset text a.offset, a.position⟩

namespace Window

open Text (byteSize crlfOffset)

/-- A cell in either spelling is one step: the carriage return of a pair stands where the line feed
stood, and the line feed right after it. -/
theorem anchorsFrom_spelled {first last offset : Nat} {cell : Cell} (hlt : offset < last)
    (hbreak : cell.char = '\n' → offset + 1 < last) (expected : Option Position)
    (cells : List Cell) :
    anchorsFrom first last offset expected (cell.spelled ++ cells) =
      let rest := anchorsFrom first last (offset + byteSize (Text.crlfChar cell.char))
        (some (cell.position.advance cell.char)) cells
      if first ≤ offset ∧ expected.isSome ∧ expected ≠ some cell.position then
        ⟨offset - first, cell.position⟩ :: rest
      else rest := by
  unfold Cell.spelled Text.crlfChar
  split
  · next hc =>
    have hr : Char.utf8Size '\r' = 1 := rfl
    have hn : Char.utf8Size '\n' = 1 := rfl
    have hposition : cell.position.nextColumn.nextLine = cell.position.nextLine := rfl
    simp [anchorsFrom, Nat.not_le.2 hlt, Nat.not_le.2 (hbreak hc), hc, Position.advance, hr, hn,
      hposition, Nat.add_assoc]
  · simp [anchorsFrom, Nat.not_le.2 hlt]

/-- The source jumps in the same places. -/
theorem anchorsFrom_crlf {lead text rest : List Char} (front : List Char) (cells : List Cell)
    (hwhole : front ++ Cell.text cells = lead ++ (text ++ rest)) (expected : Option Position) :
    anchorsFrom (byteSize (Text.crlf lead)) (byteSize (Text.crlf lead) + byteSize (Text.crlf text))
        (byteSize (Text.crlf front)) expected (Cell.crlf cells) =
      (anchorsFrom (byteSize lead) (byteSize lead + byteSize text) (byteSize front) expected
        cells).map (Anchor.crlf text) := by
  induction cells generalizing front expected with
  | nil => rfl
  | cons cell cells ih =>
    have hsplit : front ++ Cell.text (cell :: cells) =
        (front ++ [cell.char]) ++ Cell.text cells := by simp
    have hnext := ih (front ++ [cell.char]) (hsplit ▸ hwhole)
    rw [Text.byteSize_append, Text.crlf_append, Text.byteSize_append] at hnext
    -- offsets into the whole text are compared alike in both spellings
    have hmono := Text.strictMono_crlfOffset (lead ++ (text ++ rest))
    have hfront : crlfOffset (lead ++ (text ++ rest)) (byteSize front) =
        byteSize (Text.crlf front) := by rw [← hwhole, Text.crlfOffset_byteSize]
    have hlast : crlfOffset (lead ++ (text ++ rest)) (byteSize lead + byteSize text) =
        byteSize (Text.crlf lead) + byteSize (Text.crlf text) := by
      rw [Text.crlfOffset_append_add, Text.crlfOffset_byteSize]
    have hlead_le := hmono.le_iff_le (a := byteSize lead) (b := byteSize front)
    have hlast_le := hmono.le_iff_le (a := byteSize lead + byteSize text) (b := byteSize front)
    rw [Text.crlfOffset_byteSize, hfront] at hlead_le
    rw [hlast, hfront] at hlast_le
    rw [Cell.crlf, List.flatMap_cons, ← Cell.crlf]
    by_cases hend : byteSize lead + byteSize text ≤ byteSize front
    · rw [anchorsFrom, if_pos hend, List.map_nil, Cell.spelled]
      split <;> simp [anchorsFrom, hlast_le.2 hend]
    · have hbreak : cell.char = '\n' → byteSize (Text.crlf front) + 1 <
          byteSize (Text.crlf lead) + byteSize (Text.crlf text) := by
        intro hc
        have hnext : crlfOffset (lead ++ (text ++ rest)) (byteSize front + 1) =
            byteSize (Text.crlf front) + 2 := by
          rw [← hwhole, Text.crlfOffset_append_add, Cell.text, List.map_cons, hc]
          exact congrArg _ (Text.crlfOffset_byteSize ['\n'] _)
        have hle := hmono.monotone (Nat.succ_le_of_lt (Nat.not_le.1 hend))
        rw [hnext, hlast] at hle
        exact hle
      have hanchor : byteSize lead ≤ byteSize front →
          Anchor.crlf text ⟨byteSize front - byteSize lead, cell.position⟩ =
            ⟨byteSize (Text.crlf front) - byteSize (Text.crlf lead), cell.position⟩ := by
        intro hle
        obtain ⟨n, hn⟩ := Nat.exists_eq_add_of_le hle
        rw [hn, Text.crlfOffset_append_add, Text.crlfOffset_append_of_le (by omega)] at hfront
        rw [Anchor.crlf, ← hfront, hn]
        simp
      rw [anchorsFrom_spelled (Nat.not_le.1 (hlast_le.not.2 hend)) hbreak, anchorsFrom,
        if_neg hend]
      have hrest := hnext (some (cell.position.advance cell.char))
      simp only [Text.byteSize_cons, Text.byteSize_nil, Nat.add_zero, Text.crlf_cons,
        Text.crlf_nil, List.append_nil] at hrest
      simp only [hlead_le, hrest]
      split
      · next hjump => rw [List.map_cons, hanchor hjump.1]
      · rfl

/-- The anchors of the trimmed text before the last character. -/
theorem anchors_crlf (w : Window) {lead text rest : List Char}
    (hwhole : w.text = lead ++ (text ++ rest)) :
    w.crlf.anchors (byteSize (Text.crlf lead))
        (byteSize (Text.crlf lead) + byteSize (Text.crlf text)) =
      (w.anchors (byteSize lead) (byteSize lead + byteSize text)).map (Anchor.crlf text) := by
  rw [anchors, cells_crlf, anchors]
  exact anchorsFrom_crlf [] w.cells hwhole none

end Window

end Stylesheet
