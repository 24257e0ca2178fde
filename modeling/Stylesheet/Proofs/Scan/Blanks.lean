import Stylesheet.Proofs.Breaks.Run
import Stylesheet.Proofs.Scan.Coverage
import Stylesheet.Proofs.Scan.Finished

set_option autoImplicit false

/-! # Runs of blanks

Blanks that follow a state with nothing pending are read as one run. What the scanner holds after
such a run depends on the run alone (`State.Reads`): up to its first line break the blanks are just
pending, and from there on they are indentation, for which the pending text is cut down to what
follows the break. Conversely, whenever all that is pending is blank, it belongs to such a run
(`exists_vacant`): whatever takes the last visible text out of the window empties it. A visible
character ends the indentation before it and finishes it as a token, and no other token of that
type is ever finished (`mem_finished_concat`). -/

namespace Stylesheet

namespace Text

/-- The text before its first line break, and the text from there on: from the line feed, or from
the carriage return right before it. -/
def splitBreak : List Char → List Char × List Char
  | [] => ([], [])
  | c :: cs =>
    if c = '\n' ∨ c = '\r' ∧ cs.head? = some '\n' then ([], c :: cs)
    else (c :: (splitBreak cs).1, (splitBreak cs).2)

theorem splitBreak_append (cs : List Char) : (splitBreak cs).1 ++ (splitBreak cs).2 = cs := by
  fun_induction splitBreak cs with
  | case1 | case2 => rfl
  | case3 c cs hbreak ih => simpa using ih

theorem splitBreak_snd_eq_nil_iff {cs : List Char} : (splitBreak cs).2 = [] ↔ '\n' ∉ cs := by
  fun_induction splitBreak cs with
  | case1 => simp
  | case2 c cs hbreak =>
    have hmem : '\n' ∈ c :: cs := by
      rcases hbreak with rfl | ⟨-, hhead⟩
      · exact List.mem_cons_self ..
      · exact List.mem_cons_of_mem _ (List.mem_of_head? hhead)
    simp [hmem]
  | case3 c cs hbreak ih =>
    have hc : '\n' ≠ c := fun h => hbreak (Or.inl h.symm)
    simp [ih, hc]

/-- What follows a text that has a line break does not move the break. -/
theorem splitBreak_concat {cs : List Char} (h : '\n' ∈ cs) (c : Char) :
    splitBreak (cs ++ [c]) = ((splitBreak cs).1, (splitBreak cs).2 ++ [c]) := by
  fun_induction splitBreak cs with
  | case1 => simp at h
  | case2 d cs hbreak =>
    have hbreak' : d = '\n' ∨ d = '\r' ∧ (cs ++ [c]).head? = some '\n' := by
      refine hbreak.imp_right fun hpair => ⟨hpair.1, ?_⟩
      rw [List.head?_append, hpair.2]
      rfl
    rw [List.cons_append, splitBreak, if_pos hbreak']
  | case3 d cs hbreak ih =>
    have hd : '\n' ≠ d := fun hd => hbreak (Or.inl hd.symm)
    have hcs : '\n' ∈ cs := by simpa [hd] using h
    have hbreak' : ¬ (d = '\n' ∨ d = '\r' ∧ (cs ++ [c]).head? = some '\n') := by
      obtain ⟨e, rest, rfl⟩ := List.exists_cons_of_ne_nil (List.ne_nil_of_mem hcs)
      exact hbreak
    rw [List.cons_append, splitBreak, if_neg hbreak', ih hcs]

/-- The first line feed of a text begins its last line break. -/
theorem isLastBreak_splitBreak {cs : List Char} (h : '\n' ∉ cs) :
    IsLastBreak (cs ++ ['\n']) (byteSize (splitBreak (cs ++ ['\n'])).1) := by
  induction cs with
  | nil => exact ⟨[], [], by simp, rfl, Or.inl ⟨rfl, by simp⟩⟩
  | cons c cs ih =>
    simp only [List.mem_cons, not_or] at h
    obtain ⟨before, after, hafter, hsize, hcs⟩ := ih h.2
    rw [List.cons_append, splitBreak]
    split
    · next hbreak =>
      -- the line feed completes a pair
      obtain ⟨rfl, hhead⟩ := hbreak.resolve_left (Ne.symm h.1)
      cases cs with
      | nil => exact ⟨[], [], by simp, rfl, Or.inr rfl⟩
      | cons d cs =>
        obtain rfl : d = '\n' := by simpa using hhead
        simp at h
    · next hbreak =>
      refine ⟨c :: before, after, hafter, by simp [hsize], ?_⟩
      rcases hcs with ⟨hcs, hlast⟩ | hcs
      · refine Or.inl ⟨by rw [hcs]; rfl, ?_⟩
        rintro hreturn
        cases before with
        | nil =>
          refine hbreak (Or.inr ⟨by simpa using hreturn, ?_⟩)
          rw [hcs]
          rfl
        | cons d before => exact hlast (by simpa using hreturn)
      · exact Or.inr (by rw [hcs]; rfl)

end Text

theorem Window.start?_eq (w : Window) : w.start? = w.cells.head?.map Cell.position := by
  rw [Window.start?, Window.cells, List.head?_reverse]

namespace Scan

/-! ## Blanks after a vacant state -/

/-- Nothing is pending, and no token and no comment is open. -/
structure State.Vacant (s : State) : Prop where
  cells : s.window.cells = []
  current : s.current = none
  comment : s.comment = none

/-- The part of a run of blanks behind `front` that only separates what stands around it, and the
part that is indentation: the blanks from the first line break on, or all of them at the beginning
of the source. -/
def splitBlanks (front blanks : List Char) : List Char × List Char :=
  if front = [] then ([], blanks) else Text.splitBreak blanks

theorem splitBlanks_append (front blanks : List Char) :
    (splitBlanks front blanks).1 ++ (splitBlanks front blanks).2 = blanks := by
  unfold splitBlanks
  split
  · rfl
  · exact Text.splitBreak_append blanks

theorem splitBlanks_snd_eq_nil_iff {front blanks : List Char} :
    (splitBlanks front blanks).2 = [] ↔ if front = [] then blanks = [] else '\n' ∉ blanks := by
  unfold splitBlanks
  split
  · rfl
  · exact Text.splitBreak_snd_eq_nil_iff

theorem splitBlanks_concat {front blanks : List Char} (h : (splitBlanks front blanks).2 ≠ [])
    (c : Char) : splitBlanks front (blanks ++ [c]) =
      ((splitBlanks front blanks).1, (splitBlanks front blanks).2 ++ [c]) := by
  unfold splitBlanks at h ⊢
  split
  · rfl
  · next hfront =>
    rw [if_neg hfront, ne_eq, Text.splitBreak_snd_eq_nil_iff, not_not] at h
    exact Text.splitBreak_concat h c

/-- What the state holds after a run of blanks behind `front`. -/
structure State.Reads (s : State) (front blanks : List Char) : Prop where
  comment : s.comment = none
  inline : (splitBlanks front blanks).2 = [] →
    s.current = none ∧ s.window.cells = Cell.ofText (Position.start.advanceAll front) blanks
  leading : (splitBlanks front blanks).2 ≠ [] →
    ∃ id start, start = Position.start.advanceAll (front ++ (splitBlanks front blanks).1) ∧
      s.current = some ⟨id, .whitespace, start⟩ ∧
      s.window.cells = Cell.ofText start (splitBlanks front blanks).2

namespace State

variable {s : State} {front blanks : List Char} {c : Char}

theorem isLastBreak_splitBlanks (h : (splitBlanks front blanks).2 = []) :
    Text.IsLastBreak (blanks ++ ['\n'])
      (Text.byteSize (splitBlanks front (blanks ++ ['\n'])).1) := by
  rw [splitBlanks_snd_eq_nil_iff] at h
  unfold splitBlanks
  split
  · next hfront =>
    obtain rfl : blanks = [] := by simpa [hfront] using h
    exact ⟨[], [], by simp, rfl, Or.inl ⟨rfl, by simp⟩⟩
  · next hfront =>
    rw [if_neg hfront] at h
    exact Text.isLastBreak_splitBreak h

/-- Blanks that end in their first line feed are cut at the break. -/
theorem dropBefore_splitBlanks {w : Window} {offset : Nat} (hw : w.Sound)
    (hcells : w.cells = Cell.ofText (Position.start.advanceAll front) (blanks ++ ['\n']))
    (htext : (splitBlanks front blanks).2 = []) (hbreak : w.lineBreak = some offset) :
    (w.dropBefore offset).cells =
      Cell.ofText (Position.start.advanceAll (front ++ (splitBlanks front (blanks ++ ['\n'])).1))
        (splitBlanks front (blanks ++ ['\n'])).2 := by
  have hoffset : Text.byteSize (splitBlanks front (blanks ++ ['\n'])).1 = offset := by
    refine Text.IsLastBreak.unique ?_ (hw.lastBreak offset hbreak)
    rw [Window.text, hcells, Cell.text_ofText]
    exact isLastBreak_splitBlanks htext
  have hcut : w.cells =
      Cell.ofText (Position.start.advanceAll front) (splitBlanks front (blanks ++ ['\n'])).1 ++
        Cell.ofText (Position.start.advanceAll (front ++ (splitBlanks front (blanks ++ ['\n'])).1))
          (splitBlanks front (blanks ++ ['\n'])).2 := by
    rw [Position.advanceAll_append, ← Cell.ofText_append, splitBlanks_append, hcells]
  exact Window.cells_dropBefore hcut (by rw [Cell.text_ofText, hoffset])

/-- Opening indentation for the cells of a run from its line break on. -/
theorem reads_openToken {w : Window} (p : Position) (hk : s.comment = none)
    (hne : (splitBlanks front blanks).2 ≠ [])
    (hcells : w.cells = Cell.ofText
      (Position.start.advanceAll (front ++ (splitBlanks front blanks).1))
      (splitBlanks front blanks).2) :
    ({ s with window := w }.openToken .whitespace (w.start?.getD p)).Reads front blanks := by
  have hstart : w.start? =
      some (Position.start.advanceAll (front ++ (splitBlanks front blanks).1)) := by
    obtain ⟨c, rest, hc⟩ := List.exists_cons_of_ne_nil hne
    rw [Window.start?_eq, hcells, hc]
    rfl
  refine ⟨hk, fun hnil => absurd hnil hne, ?_⟩
  intro _
  exact ⟨s.nextId, _, rfl, by simp [openToken, hstart], hcells⟩

/-- The first line break of pending blanks, or a blank that begins the source, begins
indentation. -/
theorem Offered.reads_beginWhitespace (hs : s.Offered (front ++ blanks) c)
    (hk : s.comment = none) (hcurrent : s.current = none)
    (hcells : s.window.cells = Cell.ofText (Position.start.advanceAll front) (blanks ++ [c]))
    (htext : (splitBlanks front blanks).2 = []) (hall : Text.allBlank (blanks ++ [c]) = true) :
    (s.beginWhitespace c).2.Reads front (blanks ++ [c]) := by
  have hwindow : s.window.text = blanks ++ [c] := by
    rw [Window.text, hcells, Cell.text_ofText]
  have hblank : s.window.isBlank = true := by
    rw [Window.isBlank, hs.window.hasText, hwindow, hall]
    rfl
  have hc : Text.isBlank c = true := List.all_eq_true.1 hall c (by simp)
  have hfeed : '\n' ∉ blanks := by
    rw [splitBlanks_snd_eq_nil_iff] at htext
    split at htext
    · simp [htext]
    · exact htext
  unfold beginWhitespace
  rw [if_neg (by simp [hc, hblank])]
  dsimp only
  cases hbreak : s.window.lineBreak with
  | some offset =>
    obtain rfl : c = '\n' := by
      have hmem := hs.window.mem_text hbreak
      rw [hwindow] at hmem
      simpa [hfeed, eq_comm] using hmem
    refine reads_openToken s.position hk ?_ (dropBefore_splitBlanks hs.window hcells htext hbreak)
    rw [ne_eq, splitBlanks_snd_eq_nil_iff]
    split <;> simp
  | none =>
    have hne : c ≠ '\n' := by
      rintro rfl
      exact hs.window.noBreak hbreak (by simp [hwindow])
    have hstart : s.window.start? = some (Position.start.advanceAll front) := by
      rw [Window.start?_eq, hcells]
      cases blanks <;> rfl
    dsimp only
    split
    · next hfirst =>
      have hnone : Position.start.advanceAll ([] ++ front) = Position.start.advanceAll [] := by
        simpa [hstart] using hfirst
      obtain rfl : front = [] := Position.eq_nil_of_advanceAll_append hnone
      exact reads_openToken s.position hk (by simp [splitBlanks]) hcells
    · next hfirst =>
      have hfront : front ≠ [] := by
        rintro rfl
        exact hfirst hstart
      refine ⟨hk, fun _ => ⟨hcurrent, hcells⟩, ?_⟩
      intro hsome
      refine absurd ?_ hsome
      rw [splitBlanks_snd_eq_nil_iff, if_neg hfront]
      simp [hfeed, Ne.symm hne]

/-- One more blank. -/
theorem Reads.concat (h : (State.after {} (front ++ blanks)).Reads front blanks)
    (hall : Text.allBlank (blanks ++ [c]) = true) :
    (State.after {} (front ++ (blanks ++ [c]))).Reads front (blanks ++ [c]) := by
  have hs := settled_after (front ++ blanks)
  obtain ⟨-, hscan⟩ := hs.scan_of_isBlank (List.all_eq_true.1 hall c (by simp))
  rw [← List.append_assoc, after_concat, hscan]
  by_cases htext : (splitBlanks front blanks).2 = []
  · obtain ⟨hcurrent, hcells⟩ := h.inline htext
    rw [if_pos ⟨h.comment, hcurrent⟩]
    refine (hs.arrive c).reads_beginWhitespace h.comment hcurrent ?_ htext hall
    simp [arrive, hcells, hs.next]
  · obtain ⟨id, start, rfl, hcurrent, hcells⟩ := h.leading htext
    have hnext : (State.after {} (front ++ blanks)).next =
        (Position.start.advanceAll (front ++ (splitBlanks front blanks).1)).advanceAll
          (splitBlanks front blanks).2 := by
      rw [hs.next, ← Position.advanceAll_append, List.append_assoc, splitBlanks_append]
    have hconcat := splitBlanks_concat htext c
    rw [if_neg (by simp [hcurrent])]
    refine ⟨h.comment, ?_, ?_⟩
    · intro hnil
      simp [hconcat] at hnil
    · intro _
      rw [hconcat]
      refine ⟨id, _, rfl, hcurrent, ?_⟩
      rw [arrive, Window.cells_push, hcells, hnext, Cell.ofText_append, Cell.ofText_singleton]

/-- Blanks after a vacant state are read as one run. -/
theorem Vacant.reads (h : (State.after {} front).Vacant) (hall : Text.allBlank blanks = true) :
    (State.after {} (front ++ blanks)).Reads front blanks := by
  induction blanks using List.reverseRecOn with
  | nil =>
    rw [List.append_nil]
    refine ⟨h.comment, fun _ => ⟨h.current, h.cells⟩, ?_⟩
    intro hne
    refine absurd ?_ hne
    rw [splitBlanks_snd_eq_nil_iff]
    split <;> simp
  | append_singleton blanks c ih =>
    refine (ih ?_).concat hall
    simp only [Text.allBlank, List.all_append, Bool.and_eq_true] at hall
    exact hall.1

/-! ## Where pending blanks come from -/

/-- All that is pending is blank, and nothing but indentation is open. -/
structure HoldsBlanks (s : State) : Prop where
  comment : s.comment = none
  current : ∀ o, s.current = some o → o.kind = .whitespace
  blank : ∀ cell ∈ s.window.cells, cell.isVisible = false

end State

section Visible

variable {s s' : State} {cs : List Char} {c : Char} {rule : Rule} {outcome : Outcome}

theorem State.Offered.not_holdsBlanks (hs : s.Offered cs c) (hc : Text.isBlank c = false) :
    ¬ s.HoldsBlanks := by
  intro h
  have hvisible := h.blank ⟨c, s.position⟩ (by rw [hs.cells]; simp)
  simp [Cell.isVisible, hc] at hvisible

/-- A visible character that leaves nothing but blanks has emptied the window. -/
theorem Claim.vacant (h : Claim s c rule outcome s') (hs : s.Offered cs c)
    (hc : Text.isBlank c = false) (ht : outcome.token? = none) (hblanks : s'.HoldsBlanks) :
    s'.Vacant := by
  have hopened (kind : OpenKind) (start : Position) (hkind : kind ≠ .whitespace) :
      ¬ (s.openToken kind start).HoldsBlanks :=
    fun h => hkind (h.current _ rfl)
  cases h with
  | inComment k hk => simp [hblanks.comment] at hk
  | stripComment k hk hsize hends hembedded =>
    have hinterrupts := hs.coherent.comment k hk
    cases hcurrent : s.current with
    | some o =>
      -- a comment interrupts no indentation
      obtain ⟨before, inside, slash, star, -, -, -, -, -, -, hbegins⟩ := hinterrupts
      exact absurd (hblanks.current o hcurrent) (hbegins o hcurrent).1
    | none =>
      rw [hcurrent] at hinterrupts
      obtain ⟨cell, hcell, hvisible⟩ := hinterrupts.exists_visible hs.cells hembedded
      simp [hblanks.blank cell hcell] at hvisible
  | openComment => exact absurd hblanks.comment (by simp [State.openComment])
  | openAtRule => exact absurd hblanks (hopened _ _ (by simp))
  | openProperty => exact absurd hblanks (hopened _ _ (by simp))
  | openWhitespace hk hcurrent hblank => simp [hc] at hblank
  | inWhitespace hk o hcurrent hkind hblank => simp [hc] at hblank
  | rejectBlank hk hblocks hcurrent | rejectContent hk hblocks hcurrent
  | strayBrace hk hcurrent | strayContent hk hcurrent => exact ⟨rfl, hcurrent, hk⟩
  | openBlock hk | openUnclaimed hk => exact ⟨rfl, rfl, hk⟩
  | _ => simp [Outcome.token?] at ht

theorem State.preserves_vacant (cs : List Char) {c : Char} (hc : Text.isBlank c = false) :
    Preserves c (fun _ s => s.Offered cs c) (fun _ s => s.OfferedAgain cs c)
      (fun _ s => s.HoldsBlanks → s.Vacant) where
  last h := h.last
  first_of_again h := h.toOffered
  done_of_again h hblanks := absurd hblanks (h.toOffered.not_holdsBlanks hc)
  done_of_skip h _ hblanks := absurd hblanks (h.not_holdsBlanks hc)
  done_of_claim h hclaim ht hblanks := hclaim.vacant h hc ht hblanks
  done_of_token h hclaim ht _ _ := by
    obtain ⟨hcurrent, hcomment⟩ := hclaim.eq_none_of_token h ht
    exact ⟨rfl, by simpa using hcurrent, by simpa using hcomment⟩
  again_of_token h hclaim ht _ := hclaim.offeredAgain h ht

/-- Before a blank, too, nothing but blanks was held. -/
theorem State.Settled.holdsBlanks (hs : s.Settled cs) (hc : Text.isBlank c = true)
    (h : (s.scan c).2.HoldsBlanks) : s.HoldsBlanks := by
  obtain ⟨-, hscan⟩ := hs.scan_of_isBlank hc
  rw [hscan] at h
  have harrive (h : (s.arrive c).HoldsBlanks) : s.HoldsBlanks := by
    refine ⟨h.comment, h.current, ?_⟩
    intro cell hcell
    exact h.blank cell (by simp [State.arrive, hcell])
  split at h
  · next hidle =>
    by_cases hblank : (s.arrive c).window.isBlank = true
    · -- all was blank before the blanks in front of the line break were dropped
      have hcells := (hs.arrive c).window.isBlank_iff.1 hblank
      refine harrive ⟨hidle.1, by simp [State.arrive, hidle.2], ?_⟩
      intro cell hcell
      simp [Cell.isVisible, hcells cell hcell]
    · refine harrive ?_
      simpa [State.beginWhitespace, hblank] using h
  · exact harrive h

/-- Whatever blanks are pending follow a vacant state. -/
theorem State.HoldsBlanks.exists_vacant (h : (State.after {} cs).HoldsBlanks) :
    ∃ front blanks, cs = front ++ blanks ∧ (State.after {} front).Vacant ∧
      Text.allBlank blanks = true := by
  induction cs using List.reverseRecOn with
  | nil => exact ⟨[], [], rfl, ⟨rfl, rfl, rfl⟩, rfl⟩
  | append_singleton cs c ih =>
    have hs := settled_after cs
    by_cases hc : Text.isBlank c = true
    · rw [after_concat] at h
      obtain ⟨front, blanks, rfl, hvacant, hall⟩ := ih (hs.holdsBlanks hc h)
      refine ⟨front, blanks ++ [c], List.append_assoc .., hvacant, ?_⟩
      simpa [Text.allBlank, hc] using hall
    · rw [Bool.not_eq_true] at hc
      have hvacant : (State.after {} (cs ++ [c])).Vacant := by
        rw [after_concat] at h ⊢
        exact (preserves_vacant cs hc).scan [] (hs.arrive c) h
      exact ⟨cs ++ [c], [], by simp, hvacant, rfl⟩

end Visible

/-- A blank joins the window, and may begin indentation. -/
theorem State.Settled.scan_blank_cases {s : State} {cs : List Char} {c : Char} (hs : s.Settled cs)
    (hc : Text.isBlank c = true) :
    (s.scan c).2 = s.arrive c ∨ ∃ window start,
      (s.scan c).2 = { s.arrive c with window }.openToken .whitespace start := by
  rw [(hs.scan_of_isBlank hc).2]
  split
  · unfold beginWhitespace
    split
    · exact Or.inl rfl
    · dsimp only
      split
      · exact Or.inr ⟨_, _, rfl⟩
      · split
        · exact Or.inr ⟨_, _, rfl⟩
        · exact Or.inl rfl
  · exact Or.inl rfl

/-! ## Indentation as a token -/

/-- The open indentation becomes the token when it ends with the given text at `stop`. -/
def State.Indents (s : State) (text : List Char) (stop : Position) (t : Token) : Prop :=
  s.comment = none ∧ ∃ o, s.current = some o ∧ o.kind = .whitespace ∧
    t = s.linked (o.close (.whitespace (String.ofList text)) stop)

section Step

variable {s s' : State} {cs : List Char} {c : Char} {rule : Rule} {outcome : Outcome} {t : Token}

/-- A visible character finishes open indentation, and nothing else of its type. -/
theorem Claim.indents_iff (h : Claim s c rule outcome s') (hs : s.Offered cs c)
    (hc : Text.isBlank c = false) (htype : t.type = .whitespace) :
    (∃ u, outcome.token? = some u ∧ t = s'.linked u) ↔ s.Indents s.bodyText s.position t := by
  constructor
  · rintro ⟨u, hu, rfl⟩
    rw [State.type_linked] at htype
    cases h with
    | closeWhitespace hk o hcurrent hkind =>
      obtain rfl := Option.some.inj hu
      exact ⟨hk, o, hcurrent, hkind, rfl⟩
    | closeComment | closeAtRule | selector | closeProperty | closeBlock | closeBlockAfter =>
      rw [← Option.some.inj hu] at htype
      simp [OpenToken.close, OpenComment.close, OpenBlock.close, Leaf.type] at htype
    | _ => simp [Outcome.token?] at hu
  · rintro ⟨hk, o, ho, hkind, rfl⟩
    have hnone : s.current ≠ none := by simp [ho]
    have hother {kind : OpenKind} (hne : kind ≠ .whitespace) {o' : OpenToken}
        (ho' : s.current = some o') : o'.kind ≠ kind := by
      obtain rfl := Option.some.inj (ho.symm.trans ho')
      rw [hkind]
      exact hne.symm
    have hproperty : ¬ ∃ o' name, s.current = some o' ∧ o'.kind = .property name := by
      rintro ⟨o', name, ho', hkind'⟩
      exact hother (by simp) ho' hkind'
    cases h with
    | closeWhitespace hk' o' ho' =>
      obtain rfl := Option.some.inj (ho.symm.trans ho')
      exact ⟨_, rfl, rfl⟩
    | inWhitespace hk' o' ho' hkind' hblank => simp [hc] at hblank
    | inComment k hk' | stripComment k hk' | closeComment k hk' => simp [hk] at hk'
    | openComment hk' star slash before hrecent hstar hslash =>
      -- the slash before the star is no blank
      have hblank := ((OpenToken.begins_whitespace_iff hkind).1 (hs.coherent.current hk o ho)).1
        slash (by simp [Window.body, hrecent])
      rw [Cell.isVisible, hslash] at hblank
      exact absurd hblank (by decide)
    | closeAtRule hk' o' ho' hkind' => exact absurd hkind' (hother (by simp) ho')
    | closeProperty hk' hblocks o' ho' name hkind' => exact absurd hkind' (hother (by simp) ho')
    | selector hk' hbrace hcurrent => exact absurd hcurrent (not_or.2 ⟨hnone, hproperty⟩)
    | openBlock hk' hbrace hcurrent | openUnclaimed hk' hbrace hcurrent =>
      rcases hcurrent with hcurrent | ⟨o', name, ho', hkind', -⟩
      · exact absurd hcurrent hnone
      · exact absurd ⟨o', name, ho', hkind'⟩ hproperty
    | openAtRule hk' hcurrent | openWhitespace hk' hcurrent | openProperty hk' hblocks hcurrent
    | rejectBlank hk' hblocks hcurrent | rejectContent hk' hblocks hcurrent
    | closeBlock hk' hcurrent | closeBlockAfter hk' hcurrent | strayBrace hk' hcurrent
    | strayContent hk' hcurrent => exact absurd hcurrent hnone

theorem State.Offered.not_indents_of_skip (hs : s.Offered cs c) (hc : Text.isBlank c = false)
    (hskip : Rule.whitespace.scan s = (.skip, s)) {text : List Char} {stop : Position} :
    ¬ s.Indents text stop t := by
  rintro ⟨hk, o, ho, hkind, -⟩
  simp [Rule.scan, hs.last, hk, scanWhitespace, ho, hkind, hc] at hskip

theorem State.preserves_indentation (htype : t.type = .whitespace) (hc : Text.isBlank c = false)
    (P : Prop) (cs : List Char) :
    Preserves c
      (fun items s => s.Offered cs c ∧
        (t ∈ finished items s.blocks ∨ s.Indents s.bodyText s.position t ↔ P))
      (fun items s => s.OfferedAgain cs c ∧ (t ∈ finished items s.blocks ↔ P))
      (fun items s => t ∈ finished items s.blocks ↔ P) := by
  have htoken {items : List Item} {s s' : State} {rule : Rule} {outcome : Outcome} {u : Token}
      (hs : s.Offered cs c)
      (hP : t ∈ finished items s.blocks ∨ s.Indents s.bodyText s.position t ↔ P)
      (h : Claim s c rule outcome s') (hu : outcome.token? = some u) :
      t ∈ finished (items ++ outcome.found ++ (s'.complete u).1) (s'.complete u).2.blocks ↔ P := by
    rw [h.mem_finished_of_token hs hu, ← hP, ← h.indents_iff hs hc htype]
    simp [hu]
  refine ⟨fun h => h.1.last, ?_, fun h => h.2, ?_, ?_, ?_, ?_⟩
  · intro items s h
    refine ⟨h.1.toOffered, ?_⟩
    rw [← h.2, or_iff_left]
    rintro ⟨-, o, ho, -⟩
    simp [h.1.current_eq_none] at ho
  · intro items s h hskip
    rw [← h.2, or_iff_left (h.1.not_indents_of_skip hc (hskip .whitespace (by decide)))]
  · intro items s rule outcome s' h hclaim ht
    rw [hclaim.finished_eq ht, ← h.2, or_iff_left]
    rw [← hclaim.indents_iff h.1 hc htype]
    simp [ht]
  · intro items s rule outcome s' u h hclaim hu _
    exact htoken h.1 h.2 hclaim hu
  · intro items s rule outcome s' u h hclaim hu _
    exact ⟨hclaim.offeredAgain h.1 hu, htoken h.1 h.2 hclaim hu⟩

/-- One character finishes the indentation that it ends. -/
theorem State.mem_finished_concat (htype : t.type = .whitespace) (cs : List Char) (c : Char) :
    t ∈ finished (itemsOf {} (cs ++ [c])) (State.after {} (cs ++ [c])).blocks ↔
      t ∈ finished (itemsOf {} cs) (State.after {} cs).blocks ∨
        Text.isBlank c = false ∧ (State.after {} cs).Indents (State.after {} cs).window.text
          (State.after {} cs).next t := by
  have hs := settled_after cs
  rw [itemsOf_concat, after_concat]
  cases hc : Text.isBlank c with
  | true =>
    have hblocks : ((State.after {} cs).scan c).2.blocks = (State.after {} cs).blocks := by
      rcases hs.scan_blank_cases hc with hscan | ⟨window, start, hscan⟩ <;> rw [hscan] <;> rfl
    rw [(hs.scan_of_isBlank hc).1, hblocks]
    simp
  | false =>
    refine (preserves_indentation htype hc _ cs).scan _ ⟨hs.arrive c, ?_⟩
    simp only [true_and]
    rfl

/-- The end of the source finishes the indentation that it ends. -/
theorem State.mem_finished_scanText (htype : t.type = .whitespace) (cs : List Char) :
    t ∈ finished (scanText cs) [] ↔
      t ∈ finished (itemsOf {} cs) (State.after {} cs).blocks ∨
        (State.after {} cs).Indents (State.after {} cs).window.text (State.after {} cs).next t := by
  have hs := settled_after cs
  rw [scanText, finished_finish, (extends_finishBlocks (by decide) _ _).mem_iff htype,
    mem_finished_finishCurrent, (extends_finishComment (by decide) _ _).mem_iff htype]
  refine or_congr_right ?_
  generalize State.after {} cs = s at hs ⊢
  have hkind {o : OpenToken} {text : List Char} {stop : Position} {s : State}
      (ht : t = s.linked (o.close (finalContent o.kind text) stop)) : o.kind = .whitespace := by
    rw [ht, State.type_linked, OpenToken.close, Token.type_ofLeaf, type_finalContent] at htype
    cases hkind : o.kind <;> simp [hkind, OpenKind.type] at htype ⊢
  cases hk : s.comment with
  | none =>
    have hnone : s.finishComment = ([], s) := by simp [State.finishComment, hk]
    rw [hnone]
    constructor
    · rintro ⟨o, ho, ht⟩
      have hwhitespace := hkind ht
      rw [hwhitespace] at ht
      exact ⟨hk, o, ho, hwhitespace, ht⟩
    · rintro ⟨-, o, ho, hwhitespace, ht⟩
      exact ⟨o, ho, by rw [hwhitespace]; exact ht⟩
  | some k =>
    -- no comment is open in indentation
    have hcurrent : s.finishComment.2.current = s.current := by
      unfold State.finishComment
      rw [hk]
      dsimp only
      split <;> simp [clearWindow]
    obtain ⟨before, inside, slash, star, -, -, -, -, -, -, hbegins⟩ := hs.coherent.comment k hk
    constructor
    · rintro ⟨o, ho, ht⟩
      exact absurd (hkind ht) (hbegins o (hcurrent ▸ ho)).1
    · rintro ⟨hnone, -⟩
      simp [hk] at hnone

end Step

/-! ## What becomes of a run -/

section Run

variable {cs front blanks : List Char} {t : Token}

/-- A run that is indentation becomes a token. -/
theorem State.Reads.exists_indents {s : State} (h : s.Reads front blanks)
    (hne : (splitBlanks front blanks).2 ≠ []) : ∃ t, s.Indents s.window.text s.next t := by
  obtain ⟨id, start, -, hcurrent, -⟩ := h.leading hne
  exact ⟨_, h.comment, _, hcurrent, rfl, rfl⟩

/-- The token begins with the first line break of the run and ends with it. -/
theorem State.Reads.exists_place (h : (State.after {} (front ++ blanks)).Reads front blanks)
    (ht : (State.after {} (front ++ blanks)).Indents (State.after {} (front ++ blanks)).window.text
      (State.after {} (front ++ blanks)).next t) :
    (splitBlanks front blanks).2 ≠ [] ∧ ∃ place,
      t = .leaf place (.whitespace (String.ofList (splitBlanks front blanks).2)) ∧
      place.start = Position.start.advanceAll (front ++ (splitBlanks front blanks).1) ∧
      place.stop = Position.start.advanceAll (front ++ blanks) := by
  have hs := settled_after (front ++ blanks)
  obtain ⟨-, hlt, -⟩ := (grown_after (front ++ blanks)).start_lt_next hs
  obtain ⟨-, o, ho, hkind, rfl⟩ := ht
  have hne : (splitBlanks front blanks).2 ≠ [] := by
    intro hnil
    simp [(h.inline hnil).1] at ho
  obtain ⟨id, start, hstart, hcurrent, hcells⟩ := h.leading hne
  obtain rfl := Option.some.inj (hcurrent.symm.trans ho)
  have htext : (State.after {} (front ++ blanks)).window.text = (splitBlanks front blanks).2 := by
    rw [Window.text, hcells, Cell.text_ofText]
  rw [htext]
  obtain ⟨p, -, hpstart, hpstop, hlinked⟩ := (State.after {} (front ++ blanks)).exists_linked
    (OpenToken.close ⟨id, .whitespace, start⟩
      (.whitespace (String.ofList (splitBlanks front blanks).2))
      (State.after {} (front ++ blanks)).next)
  refine ⟨hne, p, hlinked, hpstart.trans hstart, hpstop.trans ?_⟩
  rw [OpenToken.close, Token.stop_ofLeaf, Position.widen_of_lt (hlt _ ho), hs.next]

/-- No blank leaves a state vacant. -/
theorem State.Vacant.isBlank_eq_false {c : Char} (h : (State.after {} front).Vacant)
    (hc : front.getLast? = some c) : Text.isBlank c = false := by
  obtain ⟨before, rfl⟩ := List.getLast?_eq_some_iff.1 hc
  by_contra hblank
  rw [Bool.not_eq_false] at hblank
  rw [after_concat] at h
  rcases (settled_after before).scan_blank_cases hblank with hscan | ⟨window, start, hscan⟩
  · have hcells := h.cells
    simp [hscan, arrive] at hcells
  · have hcurrent := h.current
    simp [hscan, openToken] at hcurrent

end Run

end Scan

end Stylesheet
