set_option autoImplicit false

/-! # Blank characters

The characters with the Unicode property `White_Space`, and trimming a text of them. This is the
one notion of white space in the library: scanning, trimming and the prelude grammars all use it.
It is wider than `Char.isWhitespace` (form feed, no-break space, the line separators) and leaves
out the zero-width space and the byte-order mark. -/

namespace Stylesheet.Text

/-- The property `White_Space`. -/
def isBlank (c : Char) : Bool :=
  let n := c.toNat
  n == 0x20 || (0x09 ≤ n && n ≤ 0x0D) || n == 0x85 || n == 0xA0 || n == 0x1680 ||
    (0x2000 ≤ n && n ≤ 0x200A) || n == 0x2028 || n == 0x2029 || n == 0x202F || n == 0x205F ||
    n == 0x3000

theorem isBlank_of_isWhitespace {c : Char} (h : c.isWhitespace = true) : isBlank c = true := by
  simp only [Char.isWhitespace, Bool.or_eq_true, decide_eq_true_eq] at h
  rcases h with ((rfl | rfl) | rfl) | rfl <;> decide

/-- The text holds nothing but blanks. -/
def allBlank (cs : List Char) : Bool := cs.all isBlank

def trimStart (cs : List Char) : List Char := cs.dropWhile isBlank

def trimEnd (cs : List Char) : List Char := (cs.reverse.dropWhile isBlank).reverse

/-- The text without the blanks around it. -/
def trim (cs : List Char) : List Char := trimEnd (trimStart cs)

/-- The trimmed text, or nothing when the text is all blank. -/
def trimmed? (cs : List Char) : Option String :=
  match trim cs with
  | [] => none
  | text => some (String.ofList text)

@[simp] theorem trim_nil : trim [] = [] := rfl

theorem trimStart_eq_nil_iff {cs : List Char} : trimStart cs = [] ↔ allBlank cs = true := by
  induction cs with
  | nil => simp [trimStart, allBlank]
  | cons c cs ih =>
    simp only [trimStart, allBlank] at ih
    cases h : isBlank c <;> simp [trimStart, allBlank, h, ih]

theorem trimEnd_eq_nil_iff {cs : List Char} : trimEnd cs = [] ↔ allBlank cs = true := by
  have h : trimEnd cs = (trimStart cs.reverse).reverse := rfl
  rw [h, List.reverse_eq_nil_iff, trimStart_eq_nil_iff]
  simp [allBlank]

/-- A text trims to nothing exactly when it is all blank. -/
theorem trim_eq_nil_iff {cs : List Char} : trim cs = [] ↔ allBlank cs = true := by
  unfold trim
  rw [trimEnd_eq_nil_iff]
  constructor
  · intro h
    refine trimStart_eq_nil_iff.1 ?_
    cases hs : trimStart cs with
    | nil => rfl
    | cons c rest =>
      have hc : isBlank c = false := by
        have := List.head?_dropWhile_not isBlank cs
        simp only [trimStart] at hs
        simpa [hs] using this
      simp [hs, allBlank, hc] at h
  · intro h
    simp [trimStart_eq_nil_iff.2 h, allBlank]

end Stylesheet.Text
