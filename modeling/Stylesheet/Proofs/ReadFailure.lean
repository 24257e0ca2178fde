import Stylesheet.Cursor
import Stylesheet.Proofs.Report

set_option autoImplicit false

/-! # Sources that cannot be read to their end

When reading fails after some bytes, what was scanned stays as it is and nothing is closed: the
items are those of the characters that the bytes are sure to stand for, and every source that goes
on after these bytes begins with the same items. Then comes the failure, once, and nothing after it
(`Source.calls_of_fails`). -/

namespace Stylesheet

/-! ## What bytes are sure to stand for -/

namespace Utf8

/-- The text is what the bytes stand for whatever follows them, which leaves out an unfinished
character at their end. -/
def Decided (bytes : List UInt8) (cs : List Char) : Prop :=
  ∃ front tail, bytes = front ++ tail ∧ (tail = [] ∨ Unfinished tail) ∧
    ∀ more ds, Lossy (tail ++ more) ds → Lossy (bytes ++ more) (cs ++ ds)

/-- The text of a byte sequence as the decoder finds it, without an unfinished character at the
end. -/
def decided (bytes : List UInt8) : List Char := (decode bytes).1.map (·.getD replacement)

theorem decided_append (bytes more : List UInt8) :
    decided (bytes ++ more) = decided bytes ++ decided ((decode bytes).2 ++ more) := by
  simp [decided, decode_append bytes more]

theorem decode_suffix (bytes : List UInt8) : (decode bytes).2 <:+ bytes := by
  induction h : bytes.length using Nat.strongRecOn generalizing bytes with
  | ind n ih =>
    cases bytes with
    | nil => exact List.suffix_rfl
    | cons a rest =>
      rw [decode_cons]
      cases firstSymbol a rest with
      | none => exact List.suffix_rfl
      | some found =>
        have hlength : (rest.drop found.2).length < n := by
          rw [← h, List.length_drop, List.length_cons]
          omega
        have hrest := ih _ hlength (rest.drop found.2) rfl
        exact (hrest.trans (List.drop_suffix _ _)).trans (List.suffix_cons a rest)

/-- What the decoder hands back is nothing or an unfinished character. -/
theorem unfinished_decode (bytes : List UInt8) :
    (decode bytes).2 = [] ∨ Unfinished (decode bytes).2 := by
  have hrest := decode_rest bytes
  generalize (decode bytes).2 = tail at hrest
  cases tail with
  | nil => exact Or.inl rfl
  | cons a rest =>
    have hfirst := first_firstSymbol a rest
    rw [decode_cons] at hrest
    cases hfound : firstSymbol a rest with
    | some found => simp [hfound] at hrest
    | none =>
      rw [hfound] at hfirst
      cases hfirst with
      | incomplete hcut => exact Or.inr (cut_iff.1 hcut)

theorem decided_decided (bytes : List UInt8) : Decided bytes (decided bytes) := by
  obtain ⟨front, hfront⟩ := decode_suffix bytes
  refine ⟨front, (decode bytes).2, hfront.symm, unfinished_decode bytes, ?_⟩
  intro more ds hds
  rw [lossy_iff.1 hds, lossy_iff]
  exact (lossy_append bytes more).symm

/-- A letter ends an unfinished character and stands for itself. -/
theorem lossy_append_letter {tail : List UInt8} (h : tail = [] ∨ Unfinished tail) :
    lossy (tail ++ [0x41]) = (if tail = [] then [] else [replacement]) ++ ['A'] := by
  have hletter : Lossy [0x41] ['A'] := .char 'A' .nil
  rcases h with rfl | h
  · exact (lossy_iff.1 hletter).symm
  · have hnext : ¬ Begins (tail ++ [0x41]) := by
      intro hbegins
      obtain ⟨a, rest, rfl⟩ := List.exists_cons_of_ne_nil h.1
      have htail := isTail_of_begins hbegins (b := 0x41) (by simp)
      revert htail
      decide
    rw [if_neg h.1]
    exact (lossy_iff.1 (.broken tail 0x41 h hnext hletter)).symm

theorem lossy_ne_nil {bytes : List UInt8} (h : bytes ≠ []) : lossy bytes ≠ [] := by
  intro hnil
  have hlossy := lossy_iff.2 hnil.symm
  cases hlossy with
  | nil => exact h rfl

/-- A text decided with nothing left over is not decided with an unfinished character left over. -/
theorem not_unfinished_of_lossy_eq {cs cs' : List Char} {tail : List UInt8}
    (htail : Unfinished tail) (h : ∀ more, cs ++ lossy more = cs' ++ lossy (tail ++ more)) : False := by
  have hcs : cs = cs' ++ [replacement] := by
    have hletter := h [0x41]
    rw [lossy_append_letter (Or.inr htail), if_neg htail.1] at hletter
    rw [show lossy [0x41] = ['A'] from lossy_append_letter (Or.inl rfl), ← List.append_assoc]
      at hletter
    exact List.append_cancel_right hletter
  -- completing the character shows it instead of the replacement
  obtain ⟨-, c, ⟨more, hmore⟩, hne⟩ := htail
  have hchar : lossy (tail ++ more) = [c] := by
    have hc : Lossy (String.utf8EncodeChar c ++ []) [c] := .char c .nil
    rw [hmore, lossy_iff.1 hc, List.append_nil]
  have hall := h more
  rw [hchar, hcs, List.append_assoc] at hall
  have hnil : lossy more = [] := by
    have hcons : replacement :: lossy more = [c] := List.append_cancel_left hall
    exact (List.cons.inj hcons).2
  refine lossy_ne_nil ?_ hnil
  rintro rfl
  exact hne (by simpa using hmore)

/-- The decoder finds the text that bytes are sure to stand for, and no other text is that. -/
theorem decided_iff {bytes : List UInt8} {cs : List Char} :
    Decided bytes cs ↔ cs = decided bytes := by
  constructor
  · rintro ⟨front, tail, -, htail, hcs⟩
    obtain ⟨-, tail', -, htail', hdecided⟩ := decided_decided bytes
    have h (more : List UInt8) :
        cs ++ lossy (tail ++ more) = decided bytes ++ lossy (tail' ++ more) := by
      rw [lossy_iff.1 (hcs more _ (lossy_iff.2 rfl)),
        lossy_iff.1 (hdecided more _ (lossy_iff.2 rfl))]
    have hletter := h [0x41]
    rw [lossy_append_letter htail, lossy_append_letter htail'] at hletter
    rcases htail with rfl | htail <;> rcases htail' with rfl | htail'
    · exact List.append_cancel_right hletter
    · exact (not_unfinished_of_lossy_eq htail' h).elim
    · exact (not_unfinished_of_lossy_eq htail fun more => (h more).symm).elim
    · rw [if_neg htail.1, if_neg htail'.1] at hletter
      exact List.append_cancel_right hletter
  · rintro rfl
    exact decided_decided bytes

end Utf8

/-! ## Reading -/

/-- The reads hand over the bytes in pieces that are not empty, with interruptions anywhere, and
then fail. -/
inductive Fails (message : String) : List UInt8 → Source → Prop
  | failed (reads : Source) : Fails message [] (.failed message :: reads)
  | interrupted {bytes : List UInt8} {reads : Source} (h : Fails message bytes reads) :
      Fails message bytes (.interrupted :: reads)
  | chunk (b : UInt8) (chunk : List UInt8) {bytes : List UInt8} {reads : Source}
      (h : Fails message bytes reads) :
      Fails message (b :: chunk ++ bytes) (.bytes (b :: chunk) :: reads)

namespace Source

/-- At every point of the reading, the characters so far are followed by what the unfinished
character carried over and the bytes still to come are sure to stand for. -/
theorem decodeOnto_of_fails {message : String} {bytes : List UInt8} {reads : Source}
    (h : Fails message bytes reads) (chars : Array Char) {carry : List UInt8}
    (hcarry : Utf8.decode carry = ([], carry)) :
    decodeOnto chars carry reads = (chars ++ Utf8.decided (carry ++ bytes), some ⟨message⟩) := by
  induction h generalizing chars carry with
  | failed reads => simp [decodeOnto, Utf8.decided, hcarry]
  | interrupted _ ih => rw [decodeOnto, ih chars hcarry]
  | @chunk b chunk bytes reads _ ih =>
    have hrest := Utf8.decode_rest (carry ++ b :: chunk)
    have hsplit := Utf8.decided_append (carry ++ b :: chunk) bytes
    rw [List.append_assoc] at hsplit
    rw [decodeOnto, hsplit]
    show decodeOnto (chars ++ Utf8.decided (carry ++ b :: chunk))
      (Utf8.decode (carry ++ b :: chunk)).2 reads = _
    rw [ih _ hrest]
    exact Prod.ext (Array.toList_inj.1 (by simp)) rfl

theorem characters_of_fails {message : String} {bytes : List UInt8} {source : Source}
    (h : Fails message bytes source) :
    source.characters =
      { items := dropMark (Utf8.decided bytes), failure := some ⟨message⟩ } := by
  simp [characters, decodeOnto_of_fails h #[] Utf8.decode_nil]

theorem dropMark_isPrefix (cs ds : List Char) : dropMark cs <+: dropMark (cs ++ ds) := by
  cases cs with
  | nil => exact List.nil_prefix
  | cons c cs =>
    simp only [List.cons_append, dropMark]
    split
    · exact List.prefix_append cs ds
    · exact List.prefix_append (c :: cs) ds

/-- The items of a text are the first of every source whose characters begin with it. -/
theorem itemsOf_isPrefix {source : Source} {cs : List Char} (h : cs <+: source.characters.items) :
    Scan.State.itemsOf {} cs <+: source.tokenize.items := by
  obtain ⟨rest, hrest⟩ := h
  have hchars : Scan.State.itemsOf {} cs <+: Scan.State.itemsOf {} source.characters.items := by
    rw [← hrest, Scan.State.itemsOf_append]
    exact List.prefix_append _ _
  cases hfailure : source.characters.failure with
  | none =>
    rw [items_tokenize hfailure]
    exact hchars.trans (List.prefix_append _ _)
  | some failure => rwa [items_tokenize_of_failure hfailure]

/-- The characters that bytes are sure to stand for begin every source whose bytes begin with
them. -/
theorem decided_isPrefix {bytes more : List UInt8} {source : Source}
    (h : Delivers (bytes ++ more) source ∨ ∃ message, Fails message (bytes ++ more) source) :
    dropMark (Utf8.decided bytes) <+: source.characters.items := by
  rcases h with h | ⟨message, h⟩
  · rw [characters_of_delivers h, Utf8.lossy_append]
    exact dropMark_isPrefix _ _
  · rw [characters_of_fails h, Utf8.decided_append]
    exact dropMark_isPrefix _ _

/-! ## Calls -/

/-- Calling for items goes through the token stream. -/
theorem answers_cursor (source : Source) : source.cursor.answers = source.tokenize.answers := by
  have hupcoming : source.cursor.decoder.upcoming = source.characters := by
    simp [cursor, Decoder.upcoming, Decoder.remaining, characters]
  have hstate : source.cursor.state = {} := rfl
  have hstart : source.cursor.queue = [] ∧ source.cursor.done = false := ⟨rfl, rfl⟩
  rw [Cursor.answers, hupcoming, hstate, hstart.1, hstart.2, Stream.answers, failure_tokenize]
  cases hfailure : source.characters.failure with
  | none => simp [items_tokenize hfailure, Scan.scanText]
  | some failure => simp [items_tokenize_of_failure hfailure]

/-- Calling for findings goes through the findings about the items and passes a failure on, as long
as no checker fails. -/
theorem answersOf_eq (k : Knowledge) (previous : Option Token) (items : List Item)
    (failure : Option ReadError) (h : (lintItems k previous items).failure = none) :
    LintCursor.answersOf k previous (Stream.answers { items, failure }) =
      Stream.answers
        { items := (lintItems k previous items).items, failure := failure.map .unreadable } := by
  induction items generalizing previous with
  | nil => cases failure <;> rfl
  | cons item items ih =>
    cases item with
    | finding f =>
      have hrest := ih previous h
      simp only [Stream.answers, List.map_cons, List.cons_append, LintCursor.answersOf,
        lintItems] at hrest ⊢
      rw [hrest]
    | token t =>
      simp only [lintItems] at h
      simp only [Stream.answers, List.map_cons, List.cons_append, LintCursor.answersOf, lintItems]
      cases hlint : lintTree k .topLevel (previous.filter fun p => t.previous = some p.id) t with
      | error fault => simp [hlint] at h
      | ok found =>
        rw [hlint] at h
        have hrest := ih (some t) h
        simp only [Stream.answers] at hrest
        simp [hrest]

theorem answers_lintCursor (source : Source) (k : Knowledge) :
    source.lintCursor.answers k = (source.findings k).answers := by
  have hitems := source.lintItems_tokenize k
  show LintCursor.answersOf k none source.cursor.answers = _
  rw [answers_cursor]
  refine (answersOf_eq k none source.tokenize.items source.tokenize.failure
    (by rw [hitems])).trans ?_
  rw [Stream.answers, Stream.answers, failure_findings, failure_tokenize, items_findings, hitems]

/-- Collecting the findings call by call is linting. -/
theorem collect_lintCursor (source : Source) (k : Knowledge) :
    source.lintCursor.collect k = source.lint k := by
  rw [LintCursor.collect_eq, answers_lintCursor, Stream.mapM_answers, lint]

/-- When reading fails after some bytes, the calls for items return those of the characters that the
bytes are sure to stand for, with nothing closed, then the failure, and nothing ever after. The
items are the first of every source whose bytes begin with these. The calls for findings return the
findings about these items, then the failure, and nothing ever after; and linting gives the failure
alone. -/
theorem calls_of_fails {message : String} {bytes : List UInt8} {source : Source}
    (h : Fails message bytes source) :
    ∃ cs items, (∀ ds, Utf8.Decided bytes ds ↔ ds = cs) ∧
      items = Scan.State.itemsOf {} (dropMark cs) ∧
      (∀ n, nthCall Cursor.next source.cursor n = (items.map .ok ++ [.error ⟨message⟩])[n]?) ∧
      (∀ more other, (Delivers (bytes ++ more) other ∨
          ∃ message', Fails message' (bytes ++ more) other) → items <+: other.tokenize.items) ∧
      ∀ k, (lintItems k none items).failure = none ∧
        (∀ n, nthCall (LintCursor.next k) source.lintCursor n =
          ((lintItems k none items).items.map .ok ++ [.error (.unreadable ⟨message⟩)])[n]?) ∧
        source.lintCursor.collect k = .error (.unreadable ⟨message⟩) ∧
        source.lint k = .error (.unreadable ⟨message⟩) := by
  have hcharacters := characters_of_fails h
  have hfailure : source.characters.failure = some ⟨message⟩ := by rw [hcharacters]
  have hitems : source.tokenize.items = Scan.State.itemsOf {} (dropMark (Utf8.decided bytes)) := by
    rw [items_tokenize_of_failure hfailure, hcharacters]
  refine ⟨Utf8.decided bytes, source.tokenize.items, fun ds => Utf8.decided_iff, hitems, ?_, ?_, ?_⟩
  · intro n
    rw [Cursor.handsOut.nthCall_eq, answers_cursor, Stream.answers, failure_tokenize, hfailure]
    rfl
  · intro more other hother
    rw [hitems]
    exact itemsOf_isPrefix (decided_isPrefix hother)
  · intro k
    have hlint : source.lint k = .error (.unreadable ⟨message⟩) := by
      rw [lint, Stream.toExcept, failure_findings, hfailure]
      rfl
    refine ⟨by rw [lintItems_tokenize], ?_, by rw [collect_lintCursor, hlint], hlint⟩
    intro n
    rw [(LintCursor.handsOut k).nthCall_eq, answers_lintCursor, Stream.answers, failure_findings,
      hfailure]
    rfl

/-- Reading fails in the middle of a character, after a rule and with a block open. -/
theorem calls_of_fails_cut :
    let source : Source :=
      [.bytes [0x61, 0x7B, 0x7D], .interrupted, .bytes [0x62, 0x7B, 0xC3], .failed "disk on fire"]
    Fails "disk on fire" [0x61, 0x7B, 0x7D, 0x62, 0x7B, 0xC3] source ∧
    ∀ n, nthCall Cursor.next source.cursor n =
      ([.ok (.token (.leaf ⟨0, none, none, ⟨1, 1⟩, ⟨1, 2⟩⟩ (.selector "a" []))),
        .ok (.token (.block ⟨1, none, some 0, ⟨1, 2⟩, ⟨1, 4⟩⟩ [])),
        .ok (.token (.leaf ⟨2, none, some 1, ⟨1, 4⟩, ⟨1, 5⟩⟩ (.selector "b" []))),
        .error ⟨"disk on fire"⟩] : List (Except ReadError Item))[n]? := by
  intro source
  have h : Fails "disk on fire" [0x61, 0x7B, 0x7D, 0x62, 0x7B, 0xC3] source :=
    .chunk 0x61 [0x7B, 0x7D] (.interrupted (.chunk 0x62 [0x7B, 0xC3] (.failed [])))
  obtain ⟨cs, items, hcs, hitems, hcalls, -⟩ := calls_of_fails h
  rw [← (hcs _).1 (Utf8.decided_decided _)] at hitems
  have hvalue : items = [.token (.leaf ⟨0, none, none, ⟨1, 1⟩, ⟨1, 2⟩⟩ (.selector "a" [])),
      .token (.block ⟨1, none, some 0, ⟨1, 2⟩, ⟨1, 4⟩⟩ []),
      .token (.leaf ⟨2, none, some 1, ⟨1, 4⟩, ⟨1, 5⟩⟩ (.selector "b" []))] := by
    rw [hitems]
    decide +kernel
  rw [hvalue] at hcalls
  exact ⟨h, hcalls⟩

end Source

end Stylesheet
