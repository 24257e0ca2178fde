import Stylesheet.Proofs.HeaderText
import Stylesheet.Proofs.DoubledPairs

set_option autoImplicit false

/-! # The search for doubled characters

Doubled characters of a selector are searched for in a copy with its strings blanked out, and what
is found there is cut out of the selector itself. The copy can be cut at the same bytes as the
selector, and a cut at a pair of the copy gives the same pair. The pairs that are reported are those
met in one pass over the copy, each as early as possible and the next one behind it
(`Checker.selector_pairs`). What is reported stands at positions that fit into machine words, as
long as there is room for the text of the selector (`Check.fits_of_mem_selector`). -/

namespace Stylesheet

/-! ## The blanked out copy -/

namespace Text

theorem map_utf8Size_maskFrom (opened : Option Char) (cs : List Char) :
    (maskFrom opened cs).map Char.utf8Size = cs.map Char.utf8Size := by
  induction cs generalizing opened with
  | nil => rfl
  | cons c cs ih =>
    obtain ⟨m, hsize, hmask⟩ := Check.exists_maskFrom_cons opened c
    rw [hmask, List.map_cons, hsize, ih, List.map_cons]

variable {cs ds : List Char}

theorem byteSize_congr (h : cs.map Char.utf8Size = ds.map Char.utf8Size) :
    byteSize cs = byteSize ds := by
  induction cs generalizing ds with
  | nil =>
    rw [List.map_nil, eq_comm, List.map_eq_nil_iff] at h
    rw [h]
  | cons c cs ih =>
    obtain ⟨d, ds, rfl, hd, hds⟩ := List.map_eq_cons_iff.1 h.symm
    rw [byteSize_cons, byteSize_cons, hd, ih hds.symm]

/-- Texts whose characters have the same sizes can be cut at the same bytes. -/
theorem isSome_splitAtByte?_congr (h : cs.map Char.utf8Size = ds.map Char.utf8Size) (n : Nat) :
    (splitAtByte? id n cs).isSome = (splitAtByte? id n ds).isSome := by
  fun_induction splitAtByte? id n cs generalizing ds with
  | case1 cs => simp [splitAtByte?]
  | case2 n =>
    rw [List.map_nil, eq_comm, List.map_eq_nil_iff] at h
    rw [h, splitAtByte?]
  | case3 n c cs hle ih =>
    obtain ⟨d, ds, rfl, hd, hds⟩ := List.map_eq_cons_iff.1 h.symm
    simp only [id_eq, ← hd] at hle ih
    simp only [splitAtByte?, id_eq, if_pos hle, ← hd, Option.isSome_map, ih hds.symm]
  | case4 n c cs hle =>
    obtain ⟨d, ds, rfl, hd, hds⟩ := List.map_eq_cons_iff.1 h.symm
    simp only [id_eq, ← hd] at hle
    simp only [splitAtByte?, id_eq, if_neg hle]

/-- What is cut out up to the end of a text ends where the text does. -/
theorem isSuffix_of_slice? {first : Nat} {before after piece : List Char}
    (h : slice? first (byteSize before) (before ++ after) = some piece) : piece <:+ before := by
  have hcut : splitAtByte? id (byteSize before) (before ++ after) = some (before, after) := by
    simpa using splitAtByte?_append id before after
  simp only [slice?, hcut, bind, Option.bind_some, pure, Option.bind_eq_some_iff,
    Option.some.injEq] at h
  obtain ⟨⟨front, middle⟩, hfront, rfl⟩ := h
  exact ⟨front, (append_of_splitAtByte? hfront).1⟩

end Text

/-! ## One pass over a text -/

namespace Check

/-- Somewhere in the text a structural character stands twice in a row. -/
def HoldsPair (cs : List Char) : Prop := ∃ c ∈ structural, [c, c] <:+: cs

theorem not_holdsPair_nil : ¬ HoldsPair [] := by
  rintro ⟨c, -, h⟩
  simpa using h.length_le

theorem not_holdsPair_singleton (c : Char) : ¬ HoldsPair [c] := by
  rintro ⟨d, -, h⟩
  simpa using h.length_le

theorem not_holdsPair_cons_iff {c : Char} {cs : List Char} :
    ¬ HoldsPair (c :: cs) ↔ (cs.head? = some c → c ∉ structural) ∧ ¬ HoldsPair cs := by
  have hinfix (e : Char) : [e, e] <:+: c :: cs ↔ (e = c ∧ cs.head? = some e) ∨ [e, e] <:+: cs := by
    rw [List.infix_cons_iff, List.cons_prefix_cons]
    cases cs with
    | nil => simp
    | cons d cs => simp [@eq_comm _ d e]
  simp only [HoldsPair, hinfix]
  constructor
  · intro h
    exact ⟨fun hhead hc => h ⟨c, hc, Or.inl ⟨rfl, hhead⟩⟩,
      fun ⟨e, he, hin⟩ => h ⟨e, he, Or.inr hin⟩⟩
  · rintro ⟨hfirst, hrest⟩ ⟨e, he, ⟨rfl, hhead⟩ | hin⟩
    · exact hfirst hhead he
    · exact hrest ⟨e, he, hin⟩

/-- The pairs met in one pass over a text that begins at byte `offset`, each with the offset of its
first character. No pair begins in the gap before the next one, and the pass goes on behind it. -/
inductive PairsMet : Nat → List Char → List (Nat × Char) → Prop where
  | none {offset : Nat} {cs : List Char} : ¬ HoldsPair cs → PairsMet offset cs []
  | pair {offset : Nat} {gap rest : List Char} {c : Char} {met : List (Nat × Char)} :
      c ∈ structural → ¬ HoldsPair (gap ++ [c]) →
      PairsMet (offset + Text.byteSize (gap ++ [c, c])) rest met →
      PairsMet offset (gap ++ [c, c] ++ rest) ((offset + Text.byteSize gap, c) :: met)

/-- A character that does not begin a pair lengthens the gap. -/
theorem PairsMet.cons {offset : Nat} {c : Char} {cs : List Char} {met : List (Nat × Char)}
    (h : PairsMet (offset + c.utf8Size) cs met) (hc : cs.head? = some c → c ∉ structural) :
    PairsMet offset (c :: cs) met := by
  cases h with
  | none hnone => exact .none (not_holdsPair_cons_iff.2 ⟨hc, hnone⟩)
  | @pair _ gap rest d met hd hgap hrest =>
    have hhead : (gap ++ [d, d] ++ rest).head? = (gap ++ [d]).head? := by cases gap <;> rfl
    have hgap' : ¬ HoldsPair (c :: gap ++ [d]) := not_holdsPair_cons_iff.2 ⟨hhead ▸ hc, hgap⟩
    have hmet : PairsMet offset (c :: gap ++ [d, d] ++ rest)
        ((offset + Text.byteSize (c :: gap), d) :: met) :=
      .pair hd hgap' (by simpa [Nat.add_assoc] using hrest)
    simpa [Nat.add_assoc] using hmet

theorem doubledFrom_cons {c : Char} {cs : List Char} (hc : cs.head? = some c → c ∉ structural)
    (offset : Nat) : doubledFrom offset (c :: cs) = doubledFrom (offset + c.utf8Size) cs := by
  cases cs with
  | nil => rfl
  | cons d cs =>
    rw [doubledFrom, if_neg]
    rintro ⟨rfl, hcontains⟩
    exact hc rfl (List.contains_iff_mem.1 hcontains)

theorem doubledFrom_of_not_holdsPair {cs : List Char} (h : ¬ HoldsPair cs) (offset : Nat) :
    doubledFrom offset cs = [] := by
  induction cs generalizing offset with
  | nil => rfl
  | cons c cs ih =>
    rw [not_holdsPair_cons_iff] at h
    rw [doubledFrom_cons h.1, ih h.2]

/-- Nothing is found before the pair at the end of a gap. -/
theorem doubledFrom_append {gap : List Char} {c : Char} (h : ¬ HoldsPair (gap ++ [c]))
    (offset : Nat) (rest : List Char) :
    doubledFrom offset (gap ++ c :: rest) =
      doubledFrom (offset + Text.byteSize gap) (c :: rest) := by
  induction gap generalizing offset with
  | nil => rfl
  | cons d gap ih =>
    have hhead : (gap ++ c :: rest).head? = (gap ++ [c]).head? := by cases gap <;> rfl
    rw [List.cons_append, not_holdsPair_cons_iff, ← hhead] at h
    rw [List.cons_append, doubledFrom_cons h.1, ih h.2, Text.byteSize_cons, Nat.add_assoc]

/-- There is one pass over a text, and it meets what is searched for. -/
theorem pairsMet_iff {offset : Nat} {cs : List Char} {met : List (Nat × Char)} :
    PairsMet offset cs met ↔ met = doubledFrom offset cs := by
  constructor
  · intro h
    induction h with
    | none hnone => rw [doubledFrom_of_not_holdsPair hnone]
    | @pair offset gap rest c met hc hgap _ ih =>
      have hcontains : structural.contains c = true := List.contains_iff_mem.2 hc
      rw [List.append_assoc, List.cons_append, doubledFrom_append hgap]
      show _ = doubledFrom _ (c :: c :: rest)
      rw [doubledFrom, if_pos ⟨rfl, hcontains⟩, ih]
      simp [Nat.add_assoc]
  · rintro rfl
    fun_induction doubledFrom offset cs with
    | case1 offset c d rest hpair ih =>
      obtain ⟨rfl, hc⟩ := hpair
      exact @PairsMet.pair offset [] rest c _ (List.contains_iff_mem.1 hc)
        (not_holdsPair_singleton c) (by simpa [Nat.add_assoc] using ih)
    | case2 offset c d rest hpair ih =>
      refine ih.cons fun hd hc => hpair ⟨?_, List.contains_iff_mem.2 hc⟩
      exact (Option.some.inj hd).symm
    | case3 cs offset hshort =>
      refine .none ?_
      rcases cs with _ | ⟨c, _ | ⟨d, rest⟩⟩
      · exact not_holdsPair_nil
      · exact not_holdsPair_singleton c
      · exact absurd rfl (hshort c d rest)

/-! ## What is cut out of the selector -/

/-- A pair that is found can be cut out of the text itself. -/
theorem slice?_of_mem_doubledFrom {n : Nat} {c : Char} {text : List Char}
    (h : (n, c) ∈ doubledFrom 0 (Text.maskQuoted text)) :
    Text.slice? n (n + Text.byteSize [c, c]) text = some [c, c] := by
  obtain ⟨-, before, after, rfl, rfl⟩ := exists_pair h
  have hslice := Text.slice?_append before [c, c] after
  rwa [Text.byteSize_append, List.append_assoc] at hslice

/-- Of a selector with characters outside the alphabet, the first of them is reported. -/
theorem selector_of_forbidden (place : Placement) {text : String} (anchors : List Anchor)
    {before after : List Char} {c : Char} (htext : text.toList = before ++ c :: after)
    (hbefore : ∀ d ∈ before, Selector.isAllowed d = true) (hc : Selector.isAllowed c = false) :
    selector place text anchors = [selectorFinding place text anchors (Text.byteSize before) [c]
      (.forbiddenCharacter c text)] := by
  have htakeWhile : (before ++ c :: after).takeWhile Selector.isAllowed = before := by
    rw [List.takeWhile_append_of_pos hbefore, List.takeWhile_cons_of_neg (by simp [hc]),
      List.append_nil]
  have hforbidden : forbiddenAt? text.toList = some (Text.byteSize before, c) := by
    rw [forbiddenAt?, htext, Selector.firstForbidden?_append_cons hbefore hc, Option.map_some,
      htakeWhile]
  rw [selector, hforbidden]

/-- Of a selector within the alphabet, doubled characters and then the parentheses are reported. -/
theorem selector_of_forall (place : Placement) {text : String} (anchors : List Anchor)
    (hall : ∀ c ∈ text.toList, Selector.isAllowed c = true) :
    selector place text anchors =
      ((doubledFrom 0 (Text.maskQuoted text.toList)).map fun (n, c) =>
          selectorFinding place text anchors n [c, c]
            (.doubledCharacter (String.ofList [c, c]) text)) ++
        if (Text.maskQuoted text.toList).count '(' = (Text.maskQuoted text.toList).count ')' then []
        else [.spanning (.unbalancedParentheses text) place.start place.stop] := by
  have hforbidden : forbiddenAt? text.toList = none := by
    rw [forbiddenAt?, Selector.firstForbidden?_eq_none_iff.2 hall, Option.map_none]
  rw [selector, hforbidden]
  dsimp only
  split
  · rw [List.append_nil]
  · rfl

/-- Some character outside the alphabet is the first. -/
theorem exists_first_forbidden {cs : List Char}
    (h : ¬ ∀ c ∈ cs, Selector.isAllowed c = true) :
    ∃ before c after, cs = before ++ c :: after ∧
      (∀ d ∈ before, Selector.isAllowed d = true) ∧ Selector.isAllowed c = false := by
  rcases Selector.cases cs with hnil | hselector | hfirst
  · exact absurd (by simp [hnil]) h
  · exact absurd (Selector.isSelector_iff.1 hselector).2 h
  · exact hfirst

/-! ## Room for the positions -/

/-- The position of a cut is reached from the start or an anchor, over no more than stands before
the cut. -/
theorem exists_locateIn_eq (start : Position) (anchors : List Anchor) {text : String}
    {before after : List Char} (htext : text.toList = before ++ after) :
    ∃ origin ∈ start :: anchors.map Anchor.position, ∃ piece : List Char,
      piece.length ≤ before.length ∧
      Token.locateIn start anchors text (Text.byteSize before) = origin.advanceAll piece := by
  rw [Token.locateIn_eq, Anchor.reach, htext]
  refine ⟨_, ?_, _, ?_, rfl⟩
  · unfold Anchor.lastBefore
    cases hfound : anchors.reverse.find? (·.offset ≤ Text.byteSize before) with
    | none => exact List.mem_cons_self ..
    | some a =>
      have ha := List.mem_reverse.1 (List.mem_of_find?_eq_some hfound)
      exact List.mem_cons_of_mem _ (List.mem_map_of_mem ha)
  · cases hslice : Text.slice? _ (Text.byteSize before) (before ++ after) with
    | none => exact Nat.zero_le _
    | some piece => exact (Text.isSuffix_of_slice? hslice).length_le

/-- What is reported about a selector stands at positions that fit into words, if there is room for
its text from every place that positions are counted from. -/
theorem fits_of_mem_selector {place : Placement} {text : String} {anchors : List Anchor}
    (hroom : ∀ origin ∈ place.start :: anchors.map Anchor.position,
      origin.HasRoomFor text.toList.length)
    (hlt : place.start < place.stop) (hstop : place.stop.Fits) {f : Finding}
    (hf : f ∈ selector place text anchors) : f.start.Fits ∧ f.stop.Fits := by
  have hfinding {before cs after : List Char} (htext : text.toList = before ++ (cs ++ after))
      (hne : cs ≠ []) (issue : Issue) :
      let f := selectorFinding place text anchors (Text.byteSize before) cs issue
      f.start.Fits ∧ f.stop.Fits := by
    obtain ⟨origin, horigin, piece, hpiece, hlocate⟩ :=
      exists_locateIn_eq place.start anchors htext
    have hlength : piece.length + cs.length ≤ text.toList.length := by
      rw [htext, List.length_append, List.length_append]
      omega
    simp only [selectorFinding, Finding.spanning, hlocate]
    rw [Position.widen_of_lt (Position.lt_advanceAll _ hne), ← Position.advanceAll_append]
    exact ⟨(hroom origin horigin).fits_advanceAll (by omega),
      (hroom origin horigin).fits_advanceAll (by rwa [List.length_append])⟩
  by_cases hall : ∀ c ∈ text.toList, Selector.isAllowed c = true
  · rw [selector_of_forall place anchors hall, List.mem_append, List.mem_map] at hf
    rcases hf with ⟨⟨n, c⟩, hpair, rfl⟩ | hf
    · obtain ⟨-, before, after, htext, rfl⟩ := exists_pair hpair
      exact hfinding htext (by simp) _
    · split at hf
      · simp at hf
      · rw [List.mem_singleton.1 hf, Finding.spanning, Position.widen_of_lt hlt]
        exact ⟨(hroom place.start (List.mem_cons_self ..)).fits, hstop⟩
  · obtain ⟨before, c, after, htext, hbefore, hc⟩ := exists_first_forbidden hall
    rw [selector_of_forbidden place anchors htext hbefore hc, List.mem_singleton] at hf
    rw [hf]
    exact hfinding htext (by simp) _

end Check

/-- The copy of a selector with its strings blanked out has as many bytes and can be cut at the same
ones. If the selector has a character outside the alphabet, the first of them is reported and
nothing else. Otherwise the doubled characters that are reported are, in order, those met in the one
pass over the copy, and at most the parentheses come behind them. What is reported can be cut out of
the selector, even if the selector is none of a source and its anchors are arbitrary. -/
theorem Checker.selector_pairs (k : Knowledge) (scope : Scope) (place : Placement) (text : String)
    (anchors : List Anchor) :
    let cs := text.toList
    let copy := Text.maskQuoted cs
    let check := Checker.selector.check k scope (.leaf place (.selector text anchors))
    Text.byteSize copy = Text.byteSize cs ∧
    (∀ n, (Text.splitAtByte? id n copy).isSome = (Text.splitAtByte? id n cs).isSome) ∧
    ((∃ before c after, cs = before ++ c :: after ∧
        (∀ d ∈ before, Selector.isAllowed d = true) ∧ Selector.isAllowed c = false ∧
        Text.slice? (Text.byteSize before) (Text.byteSize before + c.utf8Size) cs = some [c] ∧
        check = .ok [Check.selectorFinding place text anchors (Text.byteSize before) [c]
          (.forbiddenCharacter c text)]) ∨
      (∀ c ∈ cs, Selector.isAllowed c = true) ∧
      ∃ met, (∀ other, Check.PairsMet 0 copy other ↔ other = met) ∧
        (∀ n c, (n, c) ∈ met → Text.slice? n (n + Text.byteSize [c, c]) cs = some [c, c]) ∧
        check = .ok ((met.map fun (n, c) => Check.selectorFinding place text anchors n [c, c]
            (.doubledCharacter (String.ofList [c, c]) text)) ++
          if copy.count '(' = copy.count ')' then []
          else [.spanning (.unbalancedParentheses text) place.start place.stop])) := by
  intro cs copy check
  have hsizes : copy.map Char.utf8Size = cs.map Char.utf8Size := Text.map_utf8Size_maskFrom none cs
  refine ⟨Text.byteSize_congr hsizes, Text.isSome_splitAtByte?_congr hsizes, ?_⟩
  have hcheck : check = .ok (Check.selector place text anchors) := rfl
  by_cases hall : ∀ c ∈ cs, Selector.isAllowed c = true
  · refine Or.inr ⟨hall, Check.doubledFrom 0 copy, fun other => Check.pairsMet_iff,
      fun n c => Check.slice?_of_mem_doubledFrom, ?_⟩
    rw [hcheck, Check.selector_of_forall place anchors hall]
  · obtain ⟨before, c, after, htext, hbefore, hc⟩ := Check.exists_first_forbidden hall
    refine Or.inl ⟨before, c, after, htext, hbefore, hc, ?_, ?_⟩
    · have hslice := Text.slice?_append before [c] after
      rw [Text.byteSize_append, List.append_assoc] at hslice
      rw [htext]
      exact hslice
    · rw [hcheck, Check.selector_of_forbidden place anchors htext hbefore hc]

end Stylesheet
