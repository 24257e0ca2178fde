set_option autoImplicit false

/-! # Lines

Cutting a text into lines at its line feeds, and turning the three spellings of a line break into
one. -/

namespace Stylesheet.Text

/-- The lines of a text: the pieces between its line feeds, of which there is always one more
than there are line feeds. -/
def lines (cs : List Char) : List (List Char) :=
  cs.foldr (fun c pieces =>
    if c = '\n' then [] :: pieces
    else match pieces with
      | [] => [[c]]
      | piece :: rest => (c :: piece) :: rest) [[]]

/-- The lines joined by line feeds. -/
def joinLines (pieces : List (List Char)) : List Char := List.intercalate ['\n'] pieces

theorem lines_ne_nil (cs : List Char) : lines cs ≠ [] := by
  cases cs with
  | nil => simp [lines]
  | cons c cs =>
    simp only [lines, List.foldr_cons]
    split
    · simp
    · split <;> simp

/-- No line holds a line feed. -/
theorem not_mem_of_mem_lines {cs piece : List Char} (h : piece ∈ lines cs) : '\n' ∉ piece := by
  induction cs generalizing piece with
  | nil =>
    simp only [lines, List.foldr_nil, List.mem_singleton] at h
    simp [h]
  | cons c cs ih =>
    change piece ∈ (if c = '\n' then [] :: lines cs
      else match lines cs with
        | [] => [[c]]
        | first :: rest => (c :: first) :: rest) at h
    split at h
    · rcases List.mem_cons.1 h with rfl | h
      · simp
      · exact ih h
    · next hc =>
      split at h
      · simp only [List.mem_singleton] at h
        simp [h, Ne.symm hc]
      · next first rest heq =>
        rcases List.mem_cons.1 h with rfl | h
        · have : '\n' ∉ first := ih (by simp [heq])
          simp [this, Ne.symm hc]
        · exact ih (by simp [heq, h])

/-- Joining the lines of a text gives the text back. -/
theorem joinLines_lines (cs : List Char) : joinLines (lines cs) = cs := by
  induction cs with
  | nil => rfl
  | cons c cs ih =>
    change joinLines (if c = '\n' then [] :: lines cs
      else match lines cs with
        | [] => [[c]]
        | first :: rest => (c :: first) :: rest) = c :: cs
    cases hs : lines cs with
    | nil => exact absurd hs (lines_ne_nil cs)
    | cons first rest =>
      rw [hs] at ih
      split
      · next hc =>
        subst hc
        rw [← ih]
        simp [joinLines, List.intercalate, List.intersperse]
      · rw [← ih]
        cases rest <;> simp [joinLines, List.intercalate, List.intersperse]

/-- Every carriage return followed by a line feed, and then every other carriage return, becomes
a line feed. -/
def unifyBreaks : List Char → List Char
  | [] => []
  | '\r' :: '\n' :: cs => '\n' :: unifyBreaks cs
  | c :: cs => (if c = '\r' then '\n' else c) :: unifyBreaks cs

end Stylesheet.Text
