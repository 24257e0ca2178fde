set_option autoImplicit false

/-! # Byte offsets into a text

Offsets into a text count the bytes of its UTF-8 form. A text is a list of characters, or of
characters with something attached, so every function here takes the character of an element as
a function `char`. An offset can be used to cut only when it falls between two characters; the
cutting functions answer `none` otherwise. -/

namespace Stylesheet.Text

universe u

variable {α : Type u}

/-- The number of bytes of the UTF-8 form. -/
def byteSize (cs : List Char) : Nat := cs.foldr (fun c bytes => c.utf8Size + bytes) 0

@[simp] theorem byteSize_nil : byteSize [] = 0 := rfl

@[simp] theorem byteSize_cons (c : Char) (cs : List Char) :
    byteSize (c :: cs) = c.utf8Size + byteSize cs := rfl

@[simp] theorem byteSize_append (cs ds : List Char) :
    byteSize (cs ++ ds) = byteSize cs + byteSize ds := by
  induction cs with
  | nil => simp
  | cons c cs ih => simp [ih, Nat.add_assoc]

/-- The text before and after byte `offset`, when the offset falls between two characters. -/
def splitAtByte? (char : α → Char) : Nat → List α → Option (List α × List α)
  | 0, xs => some ([], xs)
  | _ + 1, [] => none
  | offset + 1, x :: xs =>
    if (char x).utf8Size ≤ offset + 1 then
      (splitAtByte? char (offset + 1 - (char x).utf8Size) xs).map fun (before, after) =>
        (x :: before, after)
    else none

/-- A successful cut loses nothing and is made at the offset asked for. -/
theorem append_of_splitAtByte? {char : α → Char} {offset : Nat} {xs before after : List α}
    (h : splitAtByte? char offset xs = some (before, after)) :
    before ++ after = xs ∧ byteSize (before.map char) = offset := by
  fun_induction splitAtByte? char offset xs generalizing before after with
  | case1 xs => simp_all
  | case2 => simp at h
  | case3 offset x xs hle ih =>
    simp only [Option.map_eq_some_iff, Prod.mk.injEq, Prod.exists] at h
    obtain ⟨b, a, hba, rfl, rfl⟩ := h
    obtain ⟨happ, hsize⟩ := ih hba
    refine ⟨by simp [happ], ?_⟩
    simp only [List.map_cons, byteSize_cons, hsize]
    omega
  | case4 => simp at h

/-- Cutting right after `before` gives it back. -/
theorem splitAtByte?_append (char : α → Char) (before after : List α) :
    splitAtByte? char (byteSize (before.map char)) (before ++ after) = some (before, after) := by
  induction before with
  | nil => simp [splitAtByte?]
  | cons x before ih =>
    have hpos : 0 < (char x).utf8Size := (char x).utf8Size_pos
    obtain ⟨n, hn⟩ : ∃ n, (char x).utf8Size + byteSize (before.map char) = n + 1 :=
      ⟨_, (Nat.succ_pred_eq_of_pos (by omega)).symm⟩
    have hrest : n + 1 - (char x).utf8Size = byteSize (before.map char) := by omega
    simp only [List.map_cons, byteSize_cons, List.cons_append, hn, splitAtByte?]
    rw [if_pos (by omega), hrest, ih]
    rfl

/-- The text from byte `first` to byte `last`, when both fall between characters. -/
def slice? (first last : Nat) (cs : List Char) : Option (List Char) := do
  let (before, _) ← splitAtByte? id last cs
  let (_, middle) ← splitAtByte? id first before
  return middle

/-- The slice between two cuts is what stands between them. -/
theorem slice?_append (before middle after : List Char) :
    slice? (byteSize before) (byteSize (before ++ middle)) (before ++ middle ++ after) =
      some middle := by
  have hcut (front back : List Char) :
      splitAtByte? id (byteSize front) (front ++ back) = some (front, back) := by
    simpa using splitAtByte?_append id front back
  simp only [slice?, hcut, bind, Option.bind, pure]

/-- The byte offset of the last `c` in the text. -/
def lastOffset? (c : Char) : List Char → Option Nat
  | [] => none
  | d :: cs =>
    match lastOffset? c cs with
    | some offset => some (d.utf8Size + offset)
    | none => if d = c then some 0 else none

theorem not_mem_of_lastOffset?_eq_none {c : Char} {cs : List Char}
    (h : lastOffset? c cs = none) : c ∉ cs := by
  fun_induction lastOffset? c cs with
  | case1 => exact List.not_mem_nil
  | case2 d cs offset hlater ih => simp at h
  | case3 cs hnone ih => simp at h
  | case4 d cs hnone hd ih => simp [ih hnone, Ne.symm hd]

theorem exists_of_lastOffset? {c : Char} {cs : List Char} {offset : Nat}
    (h : lastOffset? c cs = some offset) :
    ∃ before after, cs = before ++ c :: after ∧ c ∉ after ∧ byteSize before = offset := by
  fun_induction lastOffset? c cs generalizing offset with
  | case1 => simp at h
  | case2 d cs later hlater ih =>
    obtain ⟨before, after, rfl, hafter, rfl⟩ := ih hlater
    exact ⟨d :: before, after, rfl, hafter, by simpa using h⟩
  | case3 cs hnone ih =>
    exact ⟨[], cs, rfl, not_mem_of_lastOffset?_eq_none hnone, by simpa using h⟩
  | case4 d cs hnone hd ih => simp at h

/-- The byte offset of the last line break: of the last line feed, or of the carriage return right
before that. -/
def lastBreak? (cs : List Char) : Option Nat :=
  (lastOffset? '\n' cs).map fun offset =>
    if (slice? 0 offset cs).bind List.getLast? = some '\r' then offset - 1 else offset

/-- The elements whose first byte lies before byte `offset`. -/
def startingBefore (char : α → Char) : Nat → List α → List α
  | _, [] => []
  | 0, _ :: _ => []
  | offset + 1, x :: xs => x :: startingBefore char (offset + 1 - (char x).utf8Size) xs

end Stylesheet.Text
