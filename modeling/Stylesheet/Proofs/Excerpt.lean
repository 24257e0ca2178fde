import Mathlib.Data.List.TakeWhile
import Stylesheet.Proofs.Payload
import Stylesheet.Proofs.Scan.Uncommented

set_option autoImplicit false

/-! # Excerpts of a text

What stands between two positions is cut out of a text by comparing positions (`Cell.between`). When
the positions are the start and the end of some cells of the text, this gives back the text of those
cells, trimmed or not. `AtRuleText` and `DeclarationText` say how the text of an at-rule and of a
declaration is made up; blanks at the end make no difference to either. -/

namespace Stylesheet

namespace Text

/-! ## Trimming -/

/-- Trimming the end of a text takes away blanks. -/
theorem exists_trimEnd (cs : List Char) :
    ∃ trail, allBlank trail = true ∧ cs = trimEnd cs ++ trail := by
  refine ⟨(cs.reverse.takeWhile isBlank).reverse, ?_, ?_⟩
  · rw [allBlank, List.all_reverse]
    exact List.all_takeWhile
  · rw [trimEnd, ← List.reverse_append, List.takeWhile_append_dropWhile, List.reverse_reverse]

/-- A text is what is left of it by trimming, between blanks. -/
theorem exists_trim (cs : List Char) :
    ∃ blanks trail, allBlank blanks = true ∧ allBlank trail = true ∧
      cs = blanks ++ trimStart cs ∧ trimStart cs = trim cs ++ trail := by
  obtain ⟨trail, htrail, hstart⟩ := exists_trimEnd (trimStart cs)
  exact ⟨cs.takeWhile isBlank, trail, List.all_takeWhile, htrail,
    List.takeWhile_append_dropWhile.symm, hstart⟩

theorem trimStart_append_of_allBlank {blanks : List Char} (h : allBlank blanks = true)
    (cs : List Char) : trimStart (blanks ++ cs) = trimStart cs :=
  List.dropWhile_append_of_pos (List.all_eq_true.1 h)

theorem trimEnd_append_of_allBlank {blanks : List Char} (h : allBlank blanks = true)
    (cs : List Char) : trimEnd (cs ++ blanks) = trimEnd cs := by
  unfold trimEnd
  rw [List.reverse_append, List.dropWhile_append_of_pos (by simpa [allBlank] using h)]

theorem trimEnd_append_cons (cs : List Char) {c : Char} (h : isBlank c = false) (ds : List Char) :
    trimEnd (cs ++ c :: ds) = cs ++ c :: trimEnd ds := by
  unfold trimEnd
  rw [List.reverse_append, List.reverse_cons, List.append_assoc, List.dropWhile_append]
  split
  · next hnil =>
    rw [List.isEmpty_iff.1 hnil]
    simp [h]
  · simp

/-- Blanks at the end do not matter to what trimming leaves. -/
theorem trim_append_of_allBlank {blanks : List Char} (h : allBlank blanks = true)
    (cs : List Char) : trim (cs ++ blanks) = trim cs := by
  cases hcs : trimStart cs with
  | nil =>
    have hall : allBlank (cs ++ blanks) = true := by
      rw [allBlank, List.all_append, ← allBlank, ← allBlank, h, trimStart_eq_nil_iff.1 hcs]
      rfl
    rw [trim_eq_nil_iff.2 hall, trim_eq_nil_iff.2 (trimStart_eq_nil_iff.1 hcs)]
  | cons c rest =>
    have hstart : trimStart (cs ++ blanks) = trimStart cs ++ blanks := by
      rw [trimStart, List.dropWhile_append, ← trimStart, hcs]
      simp
    rw [trim, trim, hstart, trimEnd_append_of_allBlank h]

theorem trimmed?_append_of_allBlank {blanks : List Char} (h : allBlank blanks = true)
    (cs : List Char) : trimmed? (cs ++ blanks) = trimmed? cs := by
  rw [trimmed?, trimmed?, trim_append_of_allBlank h]

/-- A text that has been trimmed has no blanks around it. -/
theorem trim_trim (cs : List Char) : trim (trim cs) = trim cs := by
  obtain ⟨blanks, trail, hblanks, htrail, hcs, hstart⟩ := exists_trim cs
  calc trim (trim cs) = trim (trimStart cs) := by rw [hstart, trim_append_of_allBlank htrail]
    _ = trim cs := by
      conv_rhs => rw [trim, hcs, trimStart_append_of_allBlank hblanks]
      rfl

/-! ## Blanks among other characters -/

/-- The code points of the blanks. -/
def blankCodes : List Nat :=
  [0x09, 0x0A, 0x0B, 0x0C, 0x0D, 0x20, 0x85, 0xA0, 0x1680, 0x2000, 0x2001, 0x2002, 0x2003, 0x2004,
   0x2005, 0x2006, 0x2007, 0x2008, 0x2009, 0x200A, 0x2028, 0x2029, 0x202F, 0x205F, 0x3000]

theorem toNat_mem_blankCodes {c : Char} (h : isBlank c = true) : c.toNat ∈ blankCodes := by
  simp only [isBlank, Bool.or_eq_true, Bool.and_eq_true, beq_iff_eq, decide_eq_true_eq] at h
  simp only [blankCodes, List.mem_cons, List.not_mem_nil, or_false]
  omega

theorem isAtRuleNameChar_of_isBlank {c : Char} (h : isBlank c = true) :
    Payload.isAtRuleNameChar c = false := by
  have hall : ∀ n ∈ blankCodes, Payload.isAtRuleNameChar (Char.ofNat n) = false := by
    decide +kernel
  have hc := hall c.toNat (toNat_mem_blankCodes h)
  rwa [Char.ofNat_toNat] at hc

/-- A blank is no quote, no parenthesis and no backslash. -/
theorem plain_of_isBlank {c : Char} (h : isBlank c = true) :
    isQuote c = false ∧ c ≠ '(' ∧ c ≠ ')' ∧ c ≠ '\\' := by
  have hne {d : Char} (hd : isBlank d = false) : c ≠ d := ne_of_class h hd
  have hquote : c ≠ '"' ∧ c ≠ '\'' := ⟨hne (by decide), hne (by decide)⟩
  exact ⟨by simp [isQuote, hquote], hne (by decide), hne (by decide), hne (by decide)⟩

/-- Blanks in front of a text end no string and no parentheses of it. -/
theorem isQuiet_append_of_allBlank {blanks : List Char} (h : allBlank blanks = true)
    (cs : List Char) : isQuiet (blanks ++ cs) = isQuiet cs := by
  have hplain (c : Char) (hc : c ∈ blanks) := plain_of_isBlank (List.all_eq_true.1 h c hc)
  have hparens : blanks.foldl Nesting.next {} = {} :=
    foldl_next_eq_self (fun c hc => ⟨(hplain c hc).1, (hplain c hc).2.1, (hplain c hc).2.2.1⟩) rfl
  have hstring : blanks.foldl Quoting.next {} = {} := by
    induction blanks with
    | nil => rfl
    | cons c blanks ih =>
      obtain ⟨hquote, -, -, hescape⟩ := hplain c (List.mem_cons_self ..)
      have hnext : Quoting.next {} c = {} := by simp [Quoting.next, hescape, hquote]
      rw [List.foldl_cons, hnext]
      have htail : ∀ d ∈ blanks, d ∈ c :: blanks := fun d => List.mem_cons_of_mem c
      refine ih ?_ (fun d hd => hplain d (htail d hd)) ?_
      · exact List.all_eq_true.2 fun d hd => List.all_eq_true.1 h d (htail d hd)
      · refine foldl_next_eq_self (fun d hd => ?_) rfl
        obtain ⟨h₁, h₂, h₃, -⟩ := hplain d (htail d hd)
        exact ⟨h₁, h₂, h₃⟩
  simp only [isQuiet, insideString, openParens, List.foldl_append, hparens, hstring]

theorem isQuiet_trimStart (cs : List Char) : isQuiet (trimStart cs) = isQuiet cs := by
  obtain ⟨blanks, -, hblanks, -, hcs, -⟩ := exists_trim cs
  conv_rhs => rw [hcs, isQuiet_append_of_allBlank hblanks]

/-! ## Slices -/

/-- In a window that holds a comment from byte `byteSize before` on, what follows its opening up to
some end of the window. -/
theorem slice?_of_comment {w : Window} (hbytes : w.bytes = byteSize w.text)
    {before inside after : List Char}
    (htext : w.text = before ++ ['/', '*'] ++ inside ++ after) :
    slice? (byteSize before + 2) (w.bytes - byteSize after) w.text = some inside := by
  have hfirst : byteSize before + 2 = byteSize (before ++ ['/', '*']) := by
    rw [byteSize_append]
    rfl
  have hlast : w.bytes - byteSize after = byteSize (before ++ ['/', '*'] ++ inside) := by
    rw [hbytes, htext, byteSize_append _ after, Nat.add_sub_cancel]
  rw [hfirst, hlast, htext, slice?_append]

/-! ## Terminators -/

/-- The text without a semicolon at its end that is in no string and in no parentheses. -/
def withoutTerminator (cs : List Char) : List Char :=
  if cs.getLast? = some ';' ∧ isQuiet cs.dropLast = true then cs.dropLast else cs

theorem withoutTerminator_concat {cs : List Char} (h : isQuiet cs = true) :
    withoutTerminator (cs ++ [';']) = cs := by
  simp [withoutTerminator, h]

theorem Unterminated.withoutTerminator_eq {cs : List Char} (h : Unterminated cs) :
    withoutTerminator cs = cs := by
  unfold withoutTerminator
  split
  · next hlast =>
    obtain ⟨front, rfl⟩ := List.getLast?_eq_some_iff.1 hlast.1
    have hquiet := h front [] rfl
    rw [List.dropLast_concat, hquiet] at hlast
    exact absurd hlast.2 (by simp)
  · rfl

theorem Unterminated.trimStart {cs : List Char} (h : Unterminated cs) :
    Unterminated (trimStart cs) := by
  obtain ⟨blanks, -, hblanks, -, hcs, -⟩ := exists_trim cs
  intro before after hsplit
  rw [hsplit, ← List.append_assoc] at hcs
  rw [← isQuiet_append_of_allBlank hblanks]
  exact h _ after hcs

theorem Unterminated.trim {cs : List Char} (h : Unterminated cs) : Unterminated (trim cs) := by
  obtain ⟨-, trail, -, -, -, hstart⟩ := exists_trim cs
  have hunterminated := h.trimStart
  rw [hstart] at hunterminated
  exact hunterminated.of_append

end Text

/-! ## Cells between positions -/

namespace Cell

/-- The cells that stand at or after `start` and before `stop`. -/
def between (start stop : Position) (cells : List Cell) : List Cell :=
  cells.filter fun cell => decide (start ≤ cell.position ∧ cell.position < stop)

variable {front cells back : List Cell} {start stop : Position}

/-- The cells of a part of the text are those between its first position and its end. -/
theorem between_eq (ho : Ordered (front ++ cells ++ back))
    (hhead : cells.head?.map Cell.position = some start)
    (hcells : ∀ cell ∈ cells, cell.position < stop)
    (hback : ∀ cell ∈ back, stop ≤ cell.position) :
    between start stop (front ++ cells ++ back) = cells := by
  obtain ⟨first, hfirst, rfl⟩ := Option.map_eq_some_iff.1 hhead
  have hfront : ∀ cell ∈ front, cell.position < first.position := by
    intro cell hcell
    rw [List.append_assoc] at ho
    have hle := (List.pairwise_append.1 ho).2.2 cell hcell first
      (List.mem_append_left _ (List.mem_of_head? hfirst))
    exact lt_of_lt_of_le cell.position_lt_stop hle
  have hordered : Ordered cells :=
    ho.sublist ((List.sublist_append_right _ _).trans (List.sublist_append_left _ _))
  rw [between, List.filter_append, List.filter_append, List.filter_eq_nil_iff.2,
    List.filter_eq_self.2, List.filter_eq_nil_iff.2, List.nil_append, List.append_nil]
  · intro cell hcell
    simp [hback cell hcell]
  · intro cell hcell
    simp [hordered.head_le hfirst hcell, hcells cell hcell]
  · intro cell hcell
    simp [not_le.2 (hfront cell hcell)]

/-- Cells with a span are not all blank. -/
theorem allBlank_eq_false (h : span? cells = some (start, stop)) :
    Text.allBlank (text cells) = false := by
  obtain ⟨cell, hcell, hvisible, -⟩ := exists_position_eq_start h
  rw [← Bool.not_eq_true]
  intro hblank
  have hcell' := List.all_eq_true.1 hblank cell.char (List.mem_map_of_mem hcell)
  simp [isVisible, hcell'] at hvisible

/-- Blanks around the cells do not move their span. -/
theorem span?_append_of_allBlank (hfront : Text.allBlank (text front) = true)
    (hback : Text.allBlank (text back) = true) :
    span? (front ++ (cells ++ back)) = span? cells := by
  have hnone {blanks : List Cell} (hblanks : Text.allBlank (text blanks) = true) :
      blanks.filter (fun cell => !Text.isBlank cell.char) = [] := by
    rw [List.filter_eq_nil_iff]
    intro cell hcell
    simp [List.all_eq_true.1 hblanks cell.char (List.mem_map_of_mem hcell)]
  simp only [span?, List.filter_append, hnone hfront, hnone hback, List.nil_append,
    List.append_nil]

/-- Cells that begin and end with visible ones have their span from the first to the last. -/
theorem span?_of_isBare (h : Text.IsBare (text cells)) :
    ∃ first last, cells.head? = some first ∧ cells.getLast? = some last ∧
      span? cells = some (first.position, last.stop) := by
  obtain ⟨c, rest', hfirst, hc⟩ := h.first
  obtain ⟨first, rest, rfl, rfl, -⟩ := List.map_eq_cons_iff.1 hfirst
  obtain ⟨most', d, hlast, hd⟩ := h.last
  obtain ⟨most, end', hsplit, -, hend⟩ := List.map_eq_append_iff.1 hlast
  obtain ⟨last, none', rfl, rfl, hnil⟩ := List.map_eq_cons_iff.1 hend
  obtain rfl := List.map_eq_nil_iff.1 hnil
  refine ⟨first, last, rfl, by simp [hsplit], ?_⟩
  have hfirst' : ((first :: rest).filter fun cell => !Text.isBlank cell.char).head? =
      some first := by simp [hc]
  have hlast' : ((first :: rest).filter fun cell => !Text.isBlank cell.char).getLast? =
      some last := by simp [hsplit, hd]
  rw [span?, hfirst', hlast', stop_of_isVisible (by simp [isVisible, hd])]

/-- Cells with a span are blanks, the cells of the trimmed text, which begin and end with the span,
and blanks. -/
theorem exists_core (h : span? cells = some (start, stop)) :
    ∃ blanks core trail, cells = blanks ++ (core ++ trail) ∧
      core.head?.map Cell.position = some start ∧ core.getLast?.map Cell.stop = some stop ∧
      text core = Text.trim (text cells) ∧ text (core ++ trail) = Text.trimStart (text cells) := by
  obtain ⟨blanks', trail', hblanks, htrail, hsplit, hstart⟩ := Text.exists_trim (text cells)
  obtain ⟨blanks, rest, rfl, rfl, hrest⟩ := List.map_eq_append_iff.1 hsplit
  obtain ⟨core, trail, rfl, hcore, rfl⟩ := List.map_eq_append_iff.1 (hrest.trans hstart)
  rw [span?_append_of_allBlank hblanks htrail] at h
  have hbare : Text.IsBare (text core) := by
    have hne : text core ≠ [] := by
      rintro hnil
      rw [List.map_eq_nil_iff.1 hnil] at h
      simp [span?] at h
    have htrim : Text.trim (text core) = text core := by
      rw [show text core = _ from hcore, Text.trim_trim]
    have hbare : Text.IsBare (String.ofList (text core)).toList :=
      Text.isBare_of_isTrimmed (by simpa using hne) (by simpa [Text.IsTrimmed] using htrim)
    rwa [String.toList_ofList] at hbare
  obtain ⟨first, last, hfirst, hlast, hspan⟩ := span?_of_isBare hbare
  rw [hspan, Option.some.injEq, Prod.mk.injEq] at h
  exact ⟨blanks, core, trail, rfl, by rw [hfirst, ← h.1]; rfl, by rw [hlast, ← h.2]; rfl, hcore,
    hrest⟩

/-- Between the two ends of their span stand the cells of the trimmed text. -/
theorem exists_between_span (ho : Ordered (front ++ cells ++ back))
    (h : span? cells = some (start, stop)) :
    ∃ blanks core trail, cells = blanks ++ (core ++ trail) ∧
      core.head?.map Cell.position = some start ∧ core.getLast?.map Cell.stop = some stop ∧
      text core = Text.trim (text cells) ∧ text (core ++ trail) = Text.trimStart (text cells) ∧
      between start stop (front ++ cells ++ back) = core := by
  obtain ⟨blanks, core, trail, rfl, hhead, hlast, hcore, hrest⟩ := exists_core h
  obtain ⟨last, hlast', rfl⟩ := Option.map_eq_some_iff.1 hlast
  have hsplit : front ++ (blanks ++ (core ++ trail)) ++ back =
      (front ++ blanks) ++ core ++ (trail ++ back) := by simp
  rw [hsplit] at ho ⊢
  refine ⟨blanks, core, trail, rfl, hhead, hlast, hcore, hrest, between_eq ho hhead ?_ ?_⟩
  · intro cell hcell
    have hordered : Ordered core :=
      ho.sublist ((List.sublist_append_right _ _).trans (List.sublist_append_left _ _))
    exact lt_of_lt_of_le cell.position_lt_stop (hordered.stop_le_last hlast' hcell)
  · intro cell hcell
    exact (List.pairwise_append.1 ho).2.2 last
      (List.mem_append_right _ (List.mem_of_getLast? hlast')) cell hcell

/-- Between the two ends of their span the cells read as their trimmed text. -/
theorem text_between_span (ho : Ordered (front ++ cells ++ back))
    (h : span? cells = some (start, stop)) :
    text (between start stop (front ++ cells ++ back)) = Text.trim (text cells) := by
  obtain ⟨-, core, -, -, -, -, hcore, -, hbetween⟩ := exists_between_span ho h
  rw [hbetween, hcore]

/-- From the start of their span on the cells read as their text without the blanks in front. -/
theorem text_between_start {last : Position} (ho : Ordered (front ++ cells ++ back))
    (h : span? cells = some (start, last)) (hcells : ∀ cell ∈ cells, cell.position < stop)
    (hback : ∀ cell ∈ back, stop ≤ cell.position) :
    text (between start stop (front ++ cells ++ back)) = Text.trimStart (text cells) := by
  obtain ⟨blanks, core, trail, rfl, hhead, -, -, hrest⟩ := exists_core h
  have hsplit : front ++ (blanks ++ (core ++ trail)) ++ back =
      (front ++ blanks) ++ (core ++ trail) ++ back := by simp
  rw [hsplit] at ho ⊢
  rw [between_eq ho ?_ (fun cell hcell => hcells cell (by simp_all)) hback, hrest]
  obtain ⟨first, hfirst, rfl⟩ := Option.map_eq_some_iff.1 hhead
  rw [List.head?_append, hfirst]
  rfl

end Cell

/-! ## At-rules and declarations -/

/-- The text is an at-rule with the given name and value. -/
def AtRuleText (text : List Char) (name : String) (value : Option String) : Prop :=
  ∃ rest, text = '@' :: name.toList ++ rest ∧
    (∀ c ∈ name.toList, Payload.isAtRuleNameChar c = true) ∧
    (∀ c, rest.head? = some c → Payload.isAtRuleNameChar c = false) ∧ value = Text.trimmed? rest

/-- The text is a declaration with the given name and value. -/
def DeclarationText (text : List Char) (name : String) (value : Option String) : Prop :=
  ∃ gap rest, text = name.toList ++ gap ++ ':' :: rest ∧
    (∀ c ∈ name.toList, Text.isNameChar c = true) ∧ Text.allBlank gap = true ∧
    value = Text.trimmed? rest

theorem AtRuleText.append_of_allBlank {text : List Char} {name : String} {value : Option String}
    (h : AtRuleText text name value) {blanks : List Char} (hblanks : Text.allBlank blanks = true) :
    AtRuleText (text ++ blanks) name value := by
  obtain ⟨rest, rfl, hname, hrest, rfl⟩ := h
  refine ⟨rest ++ blanks, by simp, hname, ?_, (Text.trimmed?_append_of_allBlank hblanks _).symm⟩
  intro c hc
  cases rest with
  | nil =>
    have hmem := List.mem_of_head? hc
    exact Text.isAtRuleNameChar_of_isBlank (List.all_eq_true.1 hblanks c hmem)
  | cons d rest => exact hrest c (by simpa using hc)

/-- What is read from a text that begins with an `@` after blanks. -/
theorem atRuleText_splitAtRule {cs rest : List Char} (h : Text.trimStart cs = '@' :: rest) :
    AtRuleText (Text.trim cs) (Payload.splitAtRule cs).1 (Payload.splitAtRule cs).2 := by
  have htrim : Text.trim cs = '@' :: Text.trimEnd rest := by
    rw [Text.trim, h]
    exact Text.trimEnd_append_cons [] (by decide) rest
  simp only [Payload.splitAtRule, htrim]
  refine ⟨(Text.trimEnd rest).dropWhile Payload.isAtRuleNameChar, ?_, ?_, ?_, rfl⟩
  · rw [String.toList_ofList, List.cons_append, List.takeWhile_append_dropWhile]
  · rw [String.toList_ofList]
    exact List.all_eq_true.1 List.all_takeWhile
  · intro c hc
    have hnot := List.head?_dropWhile_not Payload.isAtRuleNameChar (Text.trimEnd rest)
    rw [hc] at hnot
    simpa using hnot

theorem DeclarationText.trimEnd {text : List Char} {name : String} {value : Option String}
    (h : DeclarationText text name value) : DeclarationText (Text.trimEnd text) name value := by
  obtain ⟨gap, rest, rfl, hname, hgap, rfl⟩ := h
  refine ⟨gap, Text.trimEnd rest, Text.trimEnd_append_cons _ (by decide) rest, hname, hgap, ?_⟩
  obtain ⟨trail, htrail, hrest⟩ := Text.exists_trimEnd rest
  conv_lhs => rw [hrest, Text.trimmed?_append_of_allBlank htrail]

/-- What is read from a text that begins with a name and a colon. -/
theorem declarationText_declarationValue? {head : List Char} {name : String}
    (h : Payload.declarationName? head = some name) (rest : List Char) :
    DeclarationText (Text.trimStart (head ++ rest)) name
      (Payload.declarationValue? (head ++ rest)) := by
  obtain ⟨gap, hstart, hgap⟩ := trimStart_of_declarationName? h
  have hname : ∀ c ∈ name.toList, Text.isNameChar c = true :=
    fun c hc => isNameChar_of_declarationName? h hc
  have hcut : Text.trimStart (head ++ rest) = Text.trimStart head ++ rest := by
    rw [Text.trimStart, List.dropWhile_append, ← Text.trimStart, hstart]
    simp
  refine ⟨gap, rest, by simp [hcut, hstart], hname, hgap, ?_⟩
  -- neither the name nor the blanks hold a colon
  have hcolon : ∀ c ∈ head.takeWhile Text.isBlank ++ name.toList ++ gap, (c != ':') = true := by
    intro c hc
    have hclass : Text.isBlank c = true ∨ Text.isNameChar c = true := by
      rcases List.mem_append.1 hc with hc | hc
      · rcases List.mem_append.1 hc with hc | hc
        · exact Or.inl (List.mem_takeWhile_imp hc)
        · exact Or.inr (hname c hc)
      · exact Or.inl (List.all_eq_true.1 hgap c hc)
    rcases hclass with hc | hc
    · exact bne_iff_ne.2 (Text.ne_of_class hc (by decide))
    · exact bne_iff_ne.2 (Text.ne_of_class hc (by decide))
  have hsplit : head ++ rest =
      head.takeWhile Text.isBlank ++ name.toList ++ gap ++ ':' :: rest := by
    conv_lhs => rw [← List.takeWhile_append_dropWhile (p := Text.isBlank) (l := head)]
    rw [← Text.trimStart, hstart]
    simp
  unfold Payload.declarationValue?
  rw [hsplit, List.dropWhile_append_of_pos hcolon]
  simp

end Stylesheet
