import Mathlib.Data.List.Forall2
import Stylesheet.Proofs.Indentation

set_option autoImplicit false

/-! # Stretches of characters that may not indent

A line of an indentation falls into stretches, each of one character and as long as it can be.
The runs that are reported are grown character by character; they are just the stretches of the
characters that may not indent, line by line and from left to right
(`Checker.indentation_stretches`). So every character that may not indent is reported once, and
reports that touch are about different characters.

An indentation need not come from a source and may stand anywhere. Its positions are counted on from
there, so they must not leave the words they are kept in: `Check.HasRoom` lists all that are
counted. In a source that fits into memory they never do (`Source.hasRoom_of_whitespace`). -/

namespace Stylesheet

namespace Check

/-! ## Stretches of a line -/

/-- The characters of a line from index `first` on and before index `stop`, all of them `char`. -/
structure Stretch where
  char : Char
  first : Nat
  stop : Nat
deriving DecidableEq, Repr

namespace Stretch

/-- The stretch is one of a character that may not indent, and it cannot be made longer. -/
structure Maximal (k : Knowledge) (chars : List Char) (s : Stretch) : Prop where
  not_allowed : k.allowsIndentation s.char = false
  first_lt_stop : s.first < s.stop
  within : ∀ i, s.first ≤ i → i < s.stop → chars[i]? = some s.char
  before : ∀ i, i + 1 = s.first → chars[i]? ≠ some s.char
  behind : chars[s.stop]? ≠ some s.char

variable {k : Knowledge} {chars : List Char} {s t : Stretch}

/-- Stretches that have a character in common are the same. -/
theorem Maximal.eq (hs : s.Maximal k chars) (ht : t.Maximal k chars) {i : Nat}
    (hsi : s.first ≤ i ∧ i < s.stop) (hti : t.first ≤ i ∧ i < t.stop) : s = t := by
  have hchar : s.char = t.char := by
    simpa using (hs.within i hsi.1 hsi.2).symm.trans (ht.within i hti.1 hti.2)
  have hfirst : s.first = t.first := by
    by_contra hne
    rcases Nat.lt_or_gt_of_ne hne with hlt | hlt
    · refine ht.before (t.first - 1) (by omega) ?_
      rw [← hchar]
      exact hs.within _ (by omega) (by omega)
    · refine hs.before (s.first - 1) (by omega) ?_
      rw [hchar]
      exact ht.within _ (by omega) (by omega)
  have hstop : s.stop = t.stop := by
    by_contra hne
    rcases Nat.lt_or_gt_of_ne hne with hlt | hlt
    · refine hs.behind ?_
      rw [hchar]
      exact ht.within _ (by omega) (by omega)
    · refine ht.behind ?_
      rw [← hchar]
      exact hs.within _ (by omega) (by omega)
  cases s
  cases t
  simp_all

theorem Maximal.not_allowed_of_getElem? (hs : s.Maximal k chars) {i : Nat} {c : Char}
    (hc : chars[i]? = some c) (hfirst : s.first ≤ i) (hstop : i < s.stop) :
    k.allowsIndentation c = false := by
  rw [hs.within i hfirst hstop, Option.some.injEq] at hc
  exact hc ▸ hs.not_allowed

/-- All of one character, between parts that do not go on with it. -/
theorem maximal_replicate {front rest : List Char} {c : Char} (hc : k.allowsIndentation c = false)
    (hfront : front.getLast? ≠ some c) (hrest : rest.head? ≠ some c) (n : Nat) :
    Maximal k (front ++ List.replicate (n + 1) c ++ rest)
      ⟨c, front.length, front.length + (n + 1)⟩ where
  not_allowed := hc
  first_lt_stop := by simp
  within i hfirst hstop := by
    dsimp only at hfirst hstop
    rw [List.getElem?_append_left (by simp; omega), List.getElem?_append_right hfirst,
      List.getElem?_replicate, if_pos (by omega)]
  before i hi := by
    dsimp only at hi
    rw [List.append_assoc, List.getElem?_append_left (by omega)]
    rw [List.getLast?_eq_getElem?, ← hi] at hfront
    exact hfront
  behind := by
    rw [List.getElem?_append_right (by simp)]
    simpa [List.head?_eq_getElem?] using hrest

/-- The run that a stretch of a line is, when the line begins at `start`. -/
def run (start : Position) (s : Stretch) : Run := ⟨s.char, start.shift s.first, start.shift s.stop⟩

end Stretch

/-! ## The runs of a line -/

theorem exists_eq_replicate_append (c : Char) (cs : List Char) :
    ∃ n rest, cs = List.replicate n c ++ rest ∧ rest.head? ≠ some c := by
  induction cs with
  | nil => exact ⟨0, [], rfl, by simp⟩
  | cons d cs ih =>
    by_cases hd : d = c
    · obtain ⟨n, rest, rfl, hrest⟩ := ih
      exact ⟨n + 1, rest, by rw [hd]; rfl, hrest⟩
    · exact ⟨0, d :: cs, rfl, by simpa using hd⟩

/-- A run goes on as long as its character does, and what comes behind it begins anew. -/
theorem runsFrom_replicate {k : Knowledge} {c : Char} (hc : k.allowsIndentation c = false)
    (start position : Position) (n : Nat) {rest : List Char} (hrest : rest.head? ≠ some c) :
    runsFrom k (some ⟨c, start, position⟩) position (List.replicate n c ++ rest) =
      ⟨c, start, position.shift n⟩ :: runsFrom k none (position.shift n) rest := by
  induction n generalizing position with
  | zero =>
    cases rest with
    | nil => rfl
    | cons d rest =>
      have hd : c ≠ d := by simpa [eq_comm] using hrest
      show runsFrom k _ position (d :: rest) = ⟨c, start, position⟩ :: runsFrom k none position _
      simp only [runsFrom, if_neg hd]
      split <;> rfl
  | succ n ih =>
    have hshift : position.nextColumn.shift n = position.shift (n + 1) := by
      simp only [Position.shift, Position.nextColumn, Position.mk.injEq, true_and]
      omega
    rw [List.replicate_succ, List.cons_append, runsFrom, if_neg (by simp [hc])]
    show (if c = c then _ else _) = _
    rw [if_pos rfl, ih, hshift]

/-- The stretches are those of a line that begin at index `n` or later, from left to right. -/
structure ReportedFrom (k : Knowledge) (chars : List Char) (n : Nat) (found : List Stretch) :
    Prop where
  ordered : found.Pairwise (·.stop ≤ ·.first)
  mem_iff : ∀ s, s ∈ found ↔ s.Maximal k chars ∧ n ≤ s.first
  exists_mem : ∀ i c, n ≤ i → chars[i]? = some c → k.allowsIndentation c = false →
    ∃ s ∈ found, s.first ≤ i ∧ i < s.stop

namespace ReportedFrom

variable {k : Knowledge} {chars : List Char} {n : Nat} {found : List Stretch}

/-- No stretch begins at a character that may indent. -/
theorem skip (h : ReportedFrom k chars (n + 1) found) {c : Char} (hn : chars[n]? = some c)
    (hc : k.allowsIndentation c = true) : ReportedFrom k chars n found where
  ordered := h.ordered
  mem_iff s := by
    rw [h.mem_iff, and_congr_right_iff]
    intro hs
    refine ⟨fun hle => by omega, fun hle => Nat.lt_of_le_of_ne hle ?_⟩
    rintro rfl
    simp [hs.not_allowed_of_getElem? hn (le_refl _) hs.first_lt_stop] at hc
  exists_mem i d hi hd hnot := by
    refine h.exists_mem i d (Nat.lt_of_le_of_ne hi ?_) hd hnot
    rintro rfl
    rw [hn, Option.some.injEq] at hd
    simp [← hd, hc] at hnot

/-- A stretch that begins at the index comes first. -/
theorem cons {s : Stretch} (hs : s.Maximal k chars) (h : ReportedFrom k chars s.stop found) :
    ReportedFrom k chars s.first (s :: found) where
  ordered := List.pairwise_cons.2 ⟨fun t ht => ((h.mem_iff t).1 ht).2, h.ordered⟩
  mem_iff t := by
    have hlt := hs.first_lt_stop
    rw [List.mem_cons, h.mem_iff]
    constructor
    · rintro (rfl | ⟨ht, hle⟩)
      · exact ⟨hs, le_refl _⟩
      · exact ⟨ht, by omega⟩
    · rintro ⟨ht, hle⟩
      by_cases hstop : s.stop ≤ t.first
      · exact Or.inr ⟨ht, hstop⟩
      · exact Or.inl (ht.eq hs ⟨le_refl _, ht.first_lt_stop⟩ ⟨hle, by omega⟩)
  exists_mem i c hi hc hnot := by
    by_cases hstop : i < s.stop
    · exact ⟨s, List.mem_cons_self .., hi, hstop⟩
    · obtain ⟨t, ht, hti⟩ := h.exists_mem i c (by omega) hc hnot
      exact ⟨t, List.mem_cons_of_mem _ ht, hti⟩

end ReportedFrom

/-- The runs of the rest of a line are its stretches, if no stretch goes on from the front. -/
theorem exists_reportedFrom (k : Knowledge) (start : Position) (front rest : List Char)
    (hfresh : ∀ c, rest.head? = some c → k.allowsIndentation c = false →
      front.getLast? ≠ some c) :
    ∃ found, ReportedFrom k (front ++ rest) front.length found ∧
      runsFrom k none (start.shift front.length) rest = found.map (Stretch.run start) := by
  induction hlength : rest.length using Nat.strongRecOn generalizing front rest with
  | ind length ih =>
    cases rest with
    | nil =>
      refine ⟨[], ⟨List.Pairwise.nil, ?_, ?_⟩, rfl⟩
      · intro s
        simp only [List.not_mem_nil, List.append_nil, false_iff, not_and]
        intro hs hle
        have hfirst := hs.within s.first (le_refl _) hs.first_lt_stop
        simp [List.getElem?_eq_none hle] at hfirst
      · intro i c hi hc
        simp [List.getElem?_eq_none hi] at hc
    | cons c cs =>
      have hnext : (start.shift front.length).nextColumn = start.shift (front.length + 1) := rfl
      by_cases hallowed : k.allowsIndentation c = true
      · obtain ⟨found, hfound, hruns⟩ := ih cs.length (by simp [← hlength]) (front ++ [c]) cs
          (by rintro d - hd heq; simp_all) rfl
        rw [List.length_append, List.length_singleton, ← List.append_cons] at hfound
        rw [List.length_append, List.length_singleton] at hruns
        refine ⟨found, hfound.skip (by simp) hallowed, ?_⟩
        rw [runsFrom, if_pos hallowed, hnext, hruns]
        rfl
      · rw [Bool.not_eq_true] at hallowed
        -- the whole stretch is taken at once
        obtain ⟨n, rest, rfl, hrest⟩ := exists_eq_replicate_append c cs
        have hline : front ++ c :: (List.replicate n c ++ rest) =
            front ++ List.replicate (n + 1) c ++ rest := by
          rw [List.replicate_succ, List.append_assoc, List.cons_append]
        have hshorter : rest.length < length := by
          rw [← hlength, List.length_cons, List.length_append]
          omega
        obtain ⟨found, hfound, hruns⟩ := ih rest.length hshorter
          (front ++ List.replicate (n + 1) c) rest
          (by
            intro d hd _
            rw [List.replicate_succ', ← List.append_assoc, List.getLast?_concat]
            rintro heq
            exact hrest (hd.trans heq.symm)) rfl
        rw [List.length_append, List.length_replicate] at hfound hruns
        have hmaximal := Stretch.maximal_replicate hallowed (hfresh c rfl hallowed) hrest n
        rw [← hline] at hfound hmaximal
        refine ⟨_, hfound.cons hmaximal, ?_⟩
        have hshift : (start.shift (front.length + 1)).shift n =
            start.shift (front.length + (n + 1)) := by
          simp only [Position.shift, Position.mk.injEq, true_and]
          omega
        rw [runsFrom, if_neg (by simp [hallowed]), hnext, runsFrom_replicate hallowed _ _ _ hrest,
          hshift, hruns]
        rfl

/-! ## The lines of an indentation -/

/-- The stretches are all those of a line, from left to right. So each character of the line that
may not indent lies in one of them and no other one does, and of two that touch the characters
differ. -/
structure Reported (k : Knowledge) (chars : List Char) (found : List Stretch) : Prop where
  ordered : found.Pairwise (·.stop ≤ ·.first)
  mem_iff : ∀ s, s ∈ found ↔ s.Maximal k chars
  existsUnique : ∀ i c, chars[i]? = some c → k.allowsIndentation c = false →
    ∃! s, s ∈ found ∧ s.first ≤ i ∧ i < s.stop
  not_within : ∀ i c, chars[i]? = some c → k.allowsIndentation c = true →
    ∀ s ∈ found, ¬ (s.first ≤ i ∧ i < s.stop)
  char_ne : ∀ s ∈ found, ∀ t ∈ found, s.stop = t.first → s.char ≠ t.char

theorem ReportedFrom.reported {k : Knowledge} {chars : List Char} {found : List Stretch}
    (h : ReportedFrom k chars 0 found) : Reported k chars found := by
  have hmem (s : Stretch) : s ∈ found ↔ s.Maximal k chars := by simp [h.mem_iff]
  refine ⟨h.ordered, hmem, ?_, ?_, ?_⟩
  · intro i c hc hnot
    obtain ⟨s, hs, hi⟩ := h.exists_mem i c (Nat.zero_le _) hc hnot
    refine ⟨s, ⟨hs, hi⟩, ?_⟩
    rintro t ⟨ht, hti⟩
    exact ((hmem t).1 ht).eq ((hmem s).1 hs) hti hi
  · rintro i c hc hallowed s hs ⟨hfirst, hstop⟩
    simp [((hmem s).1 hs).not_allowed_of_getElem? hc hfirst hstop] at hallowed
  · intro s hs t ht htouch hchar
    have ht' := (hmem t).1 ht
    refine ((hmem s).1 hs).behind ?_
    rw [htouch, hchar]
    exact ht'.within _ (le_refl _) ht'.first_lt_stop

/-- The finding about a run. -/
def Run.finding (r : Run) : Finding := .spanning (.indentationCharacter r.char) r.start r.stop

/-- The finding about a stretch of a line that begins at `start`. -/
def Stretch.finding (start : Position) (s : Stretch) : Finding where
  issue := .indentationCharacter s.char
  start := start.shift s.first
  stop := start.shift s.stop

/-- A stretch is at least one column wide. -/
theorem Stretch.Maximal.finding_run {k : Knowledge} {chars : List Char} {s : Stretch}
    (hs : s.Maximal k chars) (start : Position) : (s.run start).finding = s.finding start := by
  have hlt : (s.run start).start < (s.run start).stop :=
    Or.inr ⟨rfl, Nat.add_lt_add_left hs.first_lt_stop _⟩
  rw [Run.finding, Finding.spanning, Position.widen_of_lt hlt]
  rfl

/-- The findings about a line are about its stretches. -/
theorem exists_reported (k : Knowledge) (start : Position) (chars : List Char) :
    ∃ found, Reported k chars found ∧
      (runsFrom k none start chars).map Run.finding = found.map (Stretch.finding start) := by
  obtain ⟨found, hfound, hruns⟩ := exists_reportedFrom k start [] chars (by simp)
  have hreported := hfound.reported
  refine ⟨found, hreported, ?_⟩
  rw [List.length_nil] at hruns
  rw [show start = start.shift 0 from rfl, hruns, List.map_map]
  exact List.map_congr_left fun s hs => ((hreported.mem_iff s).1 hs).finding_run _

/-- Where the line with index `n` begins in a text that begins at `start`. -/
def lineStart (start : Position) (n : Nat) : Position :=
  if n = 0 then start else ⟨start.line + n, 1⟩

/-- The findings about stretches that are given line by line, when the first line has index `n`. -/
def findingsFrom (start : Position) (n : Nat) (found : List (List Stretch)) : List Finding :=
  (found.zipIdx n).flatMap fun (stretches, line) =>
    stretches.map (Stretch.finding (lineStart start line))

theorem exists_lineRuns (k : Knowledge) (start : Position) {n : Nat} (hn : n ≠ 0)
    (lines : List (List Char)) :
    ∃ found, List.Forall₂ (Reported k) lines found ∧
      (lineRuns k (start.line + n) lines).map Run.finding = findingsFrom start n found := by
  induction lines generalizing n with
  | nil => exact ⟨[], .nil, rfl⟩
  | cons chars lines ih =>
    have hstart : Position.clamped (start.line + n) 1 = lineStart start n := by
      rw [lineStart, if_neg hn]
      simp only [Position.clamped, Position.mk.injEq]
      omega
    obtain ⟨stretches, hstretches, hruns⟩ := exists_reported k (lineStart start n) chars
    obtain ⟨found, hfound, hrest⟩ := ih n.succ_ne_zero
    refine ⟨stretches :: found, .cons hstretches hfound, ?_⟩
    rw [lineRuns, hstart, List.map_append, hruns, Nat.add_assoc, hrest]
    rfl

/-- The findings about an indentation are about the stretches of its lines, line by line. -/
theorem exists_indentation (k : Knowledge) (place : Placement) (text : String) :
    ∃ found, List.Forall₂ (Reported k) (Text.lines (Text.unifyBreaks text.toList)) found ∧
      indentation k place text = findingsFrom place.start 0 found := by
  show ∃ found, _ ∧ (runs k place.start text.toList).map Run.finding = _
  unfold runs
  split
  · next hnil => exact absurd hnil (Text.lines_ne_nil _)
  · next first rest hlines =>
    obtain ⟨stretches, hstretches, hruns⟩ := exists_reported k place.start first
    obtain ⟨found, hfound, hrest⟩ := exists_lineRuns k place.start Nat.one_ne_zero rest
    refine ⟨stretches :: found, hlines ▸ .cons hstretches hfound, ?_⟩
    rw [List.map_append, hruns, hrest]
    rfl

end Check

namespace Text

/-- Line breaks are unified by replacing first the pairs and then the carriage returns left. -/
theorem unifyBreaks_eq_map_lf (cs : List Char) :
    unifyBreaks cs = (lf cs).map fun c => if c = '\r' then '\n' else c := by
  fun_induction unifyBreaks cs with
  | case1 => rfl
  | case2 cs ih => rw [lf, List.map_cons, ih]; rfl
  | case3 c cs hpair ih => rw [lf, List.map_cons, ih]; exact hpair

end Text

/-! ## Room for the positions -/

namespace Check

/-- The positions that are counted in lines of which the first begins at `start` fit into words:
those of the lines, of their characters and, for characters that may not indent, those behind. -/
def HasRoom (k : Knowledge) (start : Position) (lines : List (List Char)) : Prop :=
  ∀ n (hn : n < lines.length), (lineStart start n).Fits ∧
    ∀ i (hi : i < lines[n].length), ((lineStart start n).shift i).Fits ∧
      (k.allowsIndentation lines[n][i] = false → ((lineStart start n).shift (i + 1)).Fits)

instance (k : Knowledge) (start : Position) (lines : List (List Char)) :
    Decidable (HasRoom k start lines) :=
  inferInstanceAs (Decidable (∀ n (_ : n < lines.length), _ ∧ ∀ i (_ : i < lines[n].length), _ ∧ _))

/-- Where there is room for a line, there is room for its stretches. -/
theorem HasRoom.fits {k : Knowledge} {start : Position} {lines : List (List Char)}
    (h : HasRoom k start lines) {n : Nat} (hn : n < lines.length) {s : Stretch}
    (hs : s.Maximal k lines[n]) :
    ((lineStart start n).shift s.first).Fits ∧ ((lineStart start n).shift s.stop).Fits := by
  have hlt := hs.first_lt_stop
  have hcounted (i : Nat) (hfirst : s.first ≤ i) (hstop : i < s.stop) :
      ((lineStart start n).shift i).Fits ∧ ((lineStart start n).shift (i + 1)).Fits := by
    obtain ⟨hi, hchar⟩ := List.getElem?_eq_some_iff.1 (hs.within i hfirst hstop)
    obtain ⟨hself, hbehind⟩ := (h n hn).2 i hi
    exact ⟨hself, hbehind (hchar ▸ hs.not_allowed)⟩
  have hlast := (hcounted (s.stop - 1) (by omega) (by omega)).2
  rw [Nat.sub_add_cancel (by omega)] at hlast
  exact ⟨(hcounted s.first (le_refl _) hlt).1, hlast⟩

/-- Where there is room for a whole text, there is room for its lines. -/
theorem hasRoom_of_hasRoomFor (k : Knowledge) {start : Position} {cs : List Char}
    (h : start.HasRoomFor cs.length) :
    HasRoom k start (Text.lines ((Text.lf cs).map fun c => if c = '\r' then '\n' else c)) := by
  intro n hn
  have hfits (i : Nat) (hi : i ≤ (Text.lines _)[n].length) :
      ((lineStart start n).shift i).Fits := by
    have hline := Text.add_length_le_of_getElem?_lines (List.getElem?_eq_getElem hn)
    have hlf := Text.length_lf_le cs
    rw [List.length_map] at hline
    obtain ⟨hlines, hcolumns⟩ := h
    simp only [Position.Fits, Position.shift, lineStart]
    split
    · omega
    · dsimp only
      omega
  refine ⟨hfits 0 (Nat.zero_le _), fun i hi => ?_⟩
  exact ⟨hfits i (Nat.le_of_lt hi), fun _ => hfits (i + 1) hi⟩

end Check

/-- In a source that there is room for, there is room for every indentation. -/
theorem Source.hasRoom_of_whitespace (source : Source)
    (h : Position.start.HasRoomFor source.characters.items.length) (k : Knowledge)
    {place : Placement} {text : String} (ht : .leaf place (.whitespace text) ∈ source.tokens) :
    Check.HasRoom k place.start
      (Text.lines ((Text.lf text.toList).map fun c => if c = '\r' then '\n' else c)) := by
  obtain ⟨before, after, hsplit, hstart, -⟩ := source.spells_of_whitespace ht
  refine Check.hasRoom_of_hasRoomFor k ?_
  rw [← hstart]
  refine h.advanceAll ?_
  rw [hsplit, List.length_append, List.length_append]
  omega

/-- With the pairs of carriage return and line feed and then the other carriage returns of an
indentation turned into line feeds, and the text cut into lines, its findings are, line by line and
from left to right, those about the stretches of characters that may not indent. The stretch of the
characters from index `i` on and before index `j` is reported from column `i + 1` to column `j + 1`
of its line, and in the first line as many columns further to the right as the indentation begins
behind column one. So it is whatever the text is, and wherever it stands if there is room for the
positions. -/
theorem Checker.indentation_stretches (k : Knowledge) (scope : Scope) (place : Placement)
    (text : String)
    (hroom : Check.HasRoom k place.start
      (Text.lines ((Text.lf text.toList).map fun c => if c = '\r' then '\n' else c))) :
    ∃ found : List (List Check.Stretch),
      List.Forall₂ (Check.Reported k)
        (Text.lines ((Text.lf text.toList).map fun c => if c = '\r' then '\n' else c)) found ∧
      Checker.indentation.check k scope (.leaf place (.whitespace text)) =
        .ok (found.zipIdx.flatMap fun (stretches, n) => stretches.map fun s =>
          ⟨.indentationCharacter s.char, (Check.lineStart place.start n).shift s.first,
            (Check.lineStart place.start n).shift s.stop⟩) ∧
      ∀ n stretches, found[n]? = some stretches → ∀ s ∈ stretches,
        ((Check.lineStart place.start n).shift s.first).Fits ∧
          ((Check.lineStart place.start n).shift s.stop).Fits := by
  obtain ⟨found, hfound, hindentation⟩ := Check.exists_indentation k place text
  rw [Text.unifyBreaks_eq_map_lf] at hfound
  refine ⟨found, hfound, congrArg Except.ok hindentation, ?_⟩
  intro n stretches hn s hs
  obtain ⟨hlt, rfl⟩ := List.getElem?_eq_some_iff.1 hn
  have hline := hfound.length_eq ▸ hlt
  exact hroom.fits hline (((hfound.get hline hlt).mem_iff s).1 hs)

/-- A tab in the last column but one that a word can count, and two more after a line break. -/
theorem Checker.indentation_stretches_at_edge :
    let place : Placement := { id := 0, start := ⟨7, UInt64.size - 2⟩, stop := ⟨8, 4⟩ }
    let lines := [['\t'], [' ', '\t', '\t']]
    Check.HasRoom .builtIn place.start lines ∧
      Checker.indentation.check .builtIn .topLevel (.leaf place (.whitespace "\t\r\n \t\t")) =
        .ok [⟨.indentationCharacter '\t', ⟨7, UInt64.size - 2⟩, ⟨7, UInt64.size - 1⟩⟩,
          ⟨.indentationCharacter '\t', ⟨8, 2⟩, ⟨8, 4⟩⟩] ∧
      ∃ found : List (List Check.Stretch), List.Forall₂ (Check.Reported .builtIn) lines found ∧
        ∀ n stretches, found[n]? = some stretches → ∀ s ∈ stretches,
          ((Check.lineStart place.start n).shift s.first).Fits ∧
            ((Check.lineStart place.start n).shift s.stop).Fits := by
  intro place lines
  have hroom : Check.HasRoom .builtIn place.start lines := by decide
  obtain ⟨found, hfound, -, hfits⟩ :=
    Checker.indentation_stretches .builtIn .topLevel place "\t\r\n \t\t" hroom
  exact ⟨hroom, by decide, found, hfound, hfits⟩

/-- In the last column that a word can count there is no room for it. -/
example : ¬ Check.HasRoom .builtIn ⟨1, UInt64.size - 1⟩ [['\t']] := by decide

end Stylesheet
