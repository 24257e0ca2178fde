import Stylesheet.Lint

set_option autoImplicit false

/-! # One item at a time

A cursor hands out the items of a source, or the findings about it, one call after the other, and
reads no further than it has to. What a call returns is the first of the answers still to come, and
leaves the others (`Cursor.handsOut`, `LintCursor.handsOut`): items or findings, then at most one
failure, and nothing ever after. -/

namespace Stylesheet

/-- The answers to the calls that go through a stream: what it produced, then its failure. -/
def Stream.answers {ε α : Type} (stream : Stream ε α) : List (Except ε α) :=
  stream.items.map .ok ++ stream.failure.toList.map .error

/-- Collecting the answers gives all that a stream produced, or its failure. -/
theorem Stream.mapM_answers {ε α : Type} (stream : Stream ε α) :
    stream.answers.mapM id = stream.toExcept := by
  obtain ⟨items, failure⟩ := stream
  induction items with
  | nil => cases failure <;> rfl
  | cons item items ih =>
    simp only [answers, List.map_cons, List.cons_append, List.mapM_cons] at ih ⊢
    rw [ih]
    cases failure <;> rfl

/-! ## Calls -/

/-- What the call after `n` others returns. -/
def nthCall {σ α : Type} (next : σ → Option α × σ) (s : σ) : Nat → Option α
  | 0 => (next s).1
  | n + 1 => nthCall next (next s).2 n

/-- Each call returns the first of the answers to come and leaves the others. -/
def HandsOut {σ α : Type} (next : σ → Option α × σ) (answers : σ → List α) : Prop :=
  ∀ s, (next s).1 = (answers s).head? ∧ answers (next s).2 = (answers s).tail

namespace HandsOut

variable {σ α : Type} {next : σ → Option α × σ} {answers : σ → List α} {s s' : σ} {a : α}

theorem answers_eq_cons (h : HandsOut next answers) (hnext : next s = (some a, s')) :
    answers s = a :: answers s' := by
  obtain ⟨hhead, htail⟩ := h s
  rw [hnext] at hhead htail
  obtain ⟨rest, hrest⟩ := List.head?_eq_some_iff.1 hhead.symm
  rw [hrest, show answers s' = _ from htail, hrest, List.tail_cons]

theorem answers_eq_nil (h : HandsOut next answers) (hnext : next s = (none, s')) :
    answers s = [] ∧ answers s' = [] := by
  obtain ⟨hhead, htail⟩ := h s
  rw [hnext] at hhead htail
  have hnone := List.head?_eq_none_iff.1 hhead.symm
  exact ⟨hnone, by rw [show answers s' = _ from htail, hnone, List.tail_nil]⟩

/-- The calls go through the answers and then return nothing any more. -/
theorem nthCall_eq (h : HandsOut next answers) (s : σ) (n : Nat) :
    nthCall next s n = (answers s)[n]? := by
  induction n generalizing s with
  | zero => rw [nthCall, (h s).1, List.head?_eq_getElem?]
  | succ n ih => rw [nthCall, ih, (h s).2, List.getElem?_tail]

end HandsOut

/-! ## Characters -/

/-- How far a source has been decoded. -/
structure Decoder where
  /-- The reads to come. -/
  reads : Source
  /-- The bytes of an unfinished character. -/
  carry : List UInt8 := []
  /-- The characters that are decoded and not handed out yet. -/
  ready : List Char := []
  /-- The first character has been looked at; only there a byte-order mark is dropped. -/
  started : Bool := false

namespace Decoder

/-- The end of the source, where an unfinished character becomes a replacement. Nothing is left to
read. -/
def ended (started : Bool) (carry : List UInt8) : Decoder :=
  { reads := [], ready := if carry.isEmpty then [] else [Utf8.replacement], started }

/-- Reads on until there is a character or the source ends. -/
def refill (started : Bool) (carry : List UInt8) : Source → Except ReadError Decoder
  | [] | .bytes [] :: _ => .ok (ended started carry)
  | .interrupted :: reads => refill started carry reads
  | .failed message :: _ => .error ⟨message⟩
  | .bytes (b :: chunk) :: reads =>
    match Utf8.decode (carry ++ b :: chunk) with
    | ([], rest) => refill started rest reads
    | (symbol :: symbols, rest) =>
      .ok { reads, carry := rest, ready := (symbol :: symbols).map Source.charOfSymbol, started }

/-- The next character, whatever it is. -/
def take (d : Decoder) : Except ReadError (Option Char × Decoder) :=
  match d.ready with
  | c :: ready => .ok (some c, { d with ready })
  | [] =>
    match refill d.started d.carry d.reads with
    | .error failure => .error failure
    | .ok d =>
      match d.ready with
      | c :: ready => .ok (some c, { d with ready })
      | [] => .ok (none, d)

/-- The next character of the text, which leaves out a byte-order mark at its beginning. -/
def next (d : Decoder) : Except ReadError (Option Char × Decoder) :=
  match d.take with
  | .ok (some c, d) =>
    if d.started then .ok (some c, d)
    else if c = Source.byteOrderMark then { d with started := true }.take
    else .ok (some c, { d with started := true })
  | answer => answer

end Decoder

namespace Source

/-- The characters decoded before are kept as they are. -/
theorem decodeOnto_eq_append (chars : Array Char) (carry : List UInt8) (reads : Source) :
    decodeOnto chars carry reads =
      (chars ++ (decodeOnto #[] carry reads).1, (decodeOnto #[] carry reads).2) := by
  induction reads generalizing chars carry with
  | nil =>
    simp only [decodeOnto]
    split <;> simp
  | cons read reads ih =>
    cases read with
    | interrupted =>
      simp only [decodeOnto]
      exact ih chars carry
    | failed message => simp [decodeOnto]
    | bytes chunk =>
      cases chunk with
      | nil =>
        simp only [decodeOnto]
        split <;> simp
      | cons b chunk =>
        simp only [decodeOnto]
        rw [ih, ih (#[] ++ _)]
        exact Prod.ext (Array.toList_inj.1 (by simp)) rfl

end Source

namespace Decoder

/-- The characters not handed out yet, a byte-order mark among them, and the failure in which they
end. -/
def remaining (d : Decoder) : Stream ReadError Char :=
  let (chars, failure) := Source.decodeOnto #[] d.carry d.reads
  { items := d.ready ++ chars.toList, failure }

/-- The characters to come. -/
def upcoming (d : Decoder) : Stream ReadError Char :=
  if d.started then d.remaining
  else { d.remaining with items := Source.dropMark d.remaining.items }

/-- The answer is about the first character of a stream, and the rest of it is what `rest` says of
the decoder. -/
def Answers (rest : Decoder → Stream ReadError Char) (stream : Stream ReadError Char) :
    Except ReadError (Option Char × Decoder) → Prop
  | .error failure => stream = { failure := some failure }
  | .ok (none, _) => stream = {}
  | .ok (some c, d) => stream = { rest d with items := c :: (rest d).items }

theorem remaining_ended (started : Bool) (carry : List UInt8) :
    (ended started carry).remaining = remaining { reads := [], carry } := by
  by_cases hcarry : carry.isEmpty = true <;> simp [ended, remaining, Source.decodeOnto, hcarry]

/-- A read brings its symbols, and then what is decoded from the rest. -/
theorem remaining_chunk (started : Bool) (carry : List UInt8) (b : UInt8) (chunk : List UInt8)
    (reads : Source) :
    remaining { reads := .bytes (b :: chunk) :: reads, carry } =
      remaining
        { reads, carry := (Utf8.decode (carry ++ b :: chunk)).2,
          ready := (Utf8.decode (carry ++ b :: chunk)).1.map Source.charOfSymbol, started } := by
  simp only [remaining, Source.decodeOnto]
  rw [Source.decodeOnto_eq_append]
  simp

/-- Reading on brings the characters that are to come, and none only at the end. -/
theorem remaining_of_refill {started : Bool} {carry : List UInt8} {reads : Source} {d : Decoder}
    (h : refill started carry reads = .ok d) :
    remaining { reads, carry } = d.remaining ∧ d.started = started ∧
      (d.ready = [] → d.remaining = {}) := by
  fun_induction refill started carry reads with
  | case1 carry =>
    cases h
    exact ⟨(remaining_ended started carry).symm, rfl, fun hready => by rw [remaining, hready]; rfl⟩
  | case2 carry rest =>
    cases h
    exact ⟨(remaining_ended started carry).symm, rfl, fun hready => by rw [remaining, hready]; rfl⟩
  | case3 carry reads ih => exact ih h
  | case4 carry message rest => cases h
  | case5 carry b chunk reads rest hdecode ih =>
    rw [remaining_chunk started, hdecode]
    exact ih h
  | case6 carry b chunk reads symbol symbols rest hdecode =>
    cases h
    rw [remaining_chunk started, hdecode]
    simp

theorem remaining_of_refill_error {started : Bool} {carry : List UInt8} {reads : Source}
    {failure : ReadError} (h : refill started carry reads = .error failure) :
    remaining { reads, carry } = { failure := some failure } := by
  fun_induction refill started carry reads with
  | case1 carry => cases h
  | case2 carry rest => cases h
  | case3 carry reads ih => exact ih h
  | case4 carry message rest =>
    cases h
    rfl
  | case5 carry b chunk reads rest hdecode ih =>
    rw [remaining_chunk started, hdecode]
    exact ih h
  | case6 carry b chunk reads symbol symbols rest hdecode => cases h

/-- The character taken is the first of those that remain. -/
theorem take_answers (d : Decoder) : Answers remaining d.remaining d.take := by
  unfold take
  cases hready : d.ready with
  | cons c ready => simp [Answers, remaining, hready]
  | nil =>
    have hremaining : d.remaining = remaining { reads := d.reads, carry := d.carry } := by
      rw [remaining, hready, remaining]
    rw [hremaining]
    cases hrefill : refill d.started d.carry d.reads with
    | error failure => exact remaining_of_refill_error hrefill
    | ok filled =>
      obtain ⟨hfilled, -, hnone⟩ := remaining_of_refill hrefill
      rw [hfilled]
      dsimp only
      cases hmore : filled.ready with
      | nil => exact hnone hmore
      | cons c ready => simp [Answers, remaining, hmore]

theorem started_of_take {d d' : Decoder} {c : Option Char} (h : d.take = .ok (c, d')) :
    d'.started = d.started := by
  unfold take at h
  split at h
  · cases h
    rfl
  · split at h
    · cases h
    · next filled hrefill =>
      have hstarted := (remaining_of_refill hrefill).2.1
      split at h <;> cases h <;> exact hstarted

theorem upcoming_of_started {d : Decoder} (h : d.started = true) : d.upcoming = d.remaining := by
  rw [upcoming, if_pos h]

/-- Once the first character has been looked at, all that remain are to come. -/
theorem take_answers_of_started {d : Decoder} (h : d.started = true) :
    Answers upcoming d.upcoming d.take := by
  have htake := d.take_answers
  rw [upcoming_of_started h]
  cases hd : d.take with
  | error failure => rwa [hd] at htake
  | ok answer =>
    obtain ⟨_ | c, d'⟩ := answer
    · rwa [hd] at htake
    · rw [hd] at htake
      have hrest := upcoming_of_started ((started_of_take hd).trans h)
      simpa only [Answers, hrest] using htake

/-- The next character is the first of those to come. -/
theorem next_answers (d : Decoder) : Answers upcoming d.upcoming d.next := by
  unfold next
  by_cases hs : d.started = true
  · have hstarted := take_answers_of_started hs
    cases hd : d.take with
    | error failure => rwa [hd] at hstarted
    | ok answer =>
      obtain ⟨_ | c, d'⟩ := answer
      · rwa [hd] at hstarted
      · rw [hd] at hstarted
        simpa only [(started_of_take hd).trans hs, if_true] using hstarted
  · have htake := d.take_answers
    have hupcoming : d.upcoming =
        { d.remaining with items := Source.dropMark d.remaining.items } := by
      rw [upcoming, if_neg hs]
    cases hd : d.take with
    | error failure =>
      rw [hd] at htake
      simp only [Answers] at htake ⊢
      simp [hupcoming, htake, Source.dropMark]
    | ok answer =>
      obtain ⟨_ | c, d'⟩ := answer
      · rw [hd] at htake
        simp only [Answers] at htake ⊢
        simp [hupcoming, htake, Source.dropMark]
      · have hs' : ¬ d'.started = true := by rwa [started_of_take hd]
        rw [hd] at htake
        simp only [Answers] at htake
        simp only [hs']
        by_cases hc : c = Source.byteOrderMark
        · have hmark : d.upcoming = { d' with started := true }.upcoming := by
            rw [hupcoming, htake, hc]
            rfl
          rw [hmark]
          simpa [hc] using take_answers_of_started (d := { d' with started := true }) rfl
        · have hfirst : d.upcoming = { d'.remaining with items := c :: d'.remaining.items } := by
            rw [hupcoming, htake]
            simp [Source.dropMark, hc]
          simp only [hc, if_false]
          exact hfirst

end Decoder

/-! ## Items -/

/-- How far the items of a source have been handed out. -/
structure Cursor where
  decoder : Decoder
  state : Scan.State := {}
  /-- The items that are finished and not handed out yet. -/
  queue : List Item := []
  /-- Nothing more is read. -/
  done : Bool := false

/-- The items of a source, from the beginning. -/
def Source.cursor (source : Source) : Cursor := { decoder := { reads := source } }

namespace Cursor

/-- The next item: one that is waiting, or the first that reading on brings. A failure to read is
handed out in its place, and is the last thing handed out. -/
def next (t : Cursor) : Option (Except ReadError Item) × Cursor :=
  match t.queue with
  | item :: queue => (some (.ok item), { t with queue })
  | [] =>
    if t.done then (none, t)
    else
      match _ : t.decoder.next with
      | .error failure => (some (.error failure), { t with done := true })
      | .ok (none, decoder) =>
        next { t with decoder, queue := t.state.finish.items, done := true }
      | .ok (some c, decoder) =>
        next { t with decoder, state := (t.state.scan c).2, queue := (t.state.scan c).1.items }
termination_by if t.done then 0 else 1 + t.decoder.upcoming.items.length
decreasing_by
  · next hdone _ =>
    rw [if_neg hdone, if_pos trivial]
    omega
  · next hdone hnext =>
    have hupcoming := t.decoder.next_answers
    rw [hnext] at hupcoming
    rw [if_neg hdone, if_neg hdone, show t.decoder.upcoming = _ from hupcoming, List.length_cons]
    omega

/-- The answers to the calls to come: what is waiting, and unless everything is read, the items of
the characters to come, with what the end of the source closes or else the failure. -/
def answers (t : Cursor) : List (Except ReadError Item) :=
  t.queue.map .ok ++
    if t.done then []
    else
      (t.state.itemsOf t.decoder.upcoming.items).map .ok ++
        match t.decoder.upcoming.failure with
        | none => (t.state.after t.decoder.upcoming.items).finish.items.map .ok
        | some failure => [.error failure]

theorem handsOut : HandsOut next answers := by
  intro t
  fun_induction next t with
  | case1 t item queue hqueue => simp [answers, hqueue]
  | case2 t hqueue hdone => simp [answers, hqueue, hdone]
  | case3 t hqueue hdone failure hnext =>
    have hupcoming := t.decoder.next_answers
    rw [hnext] at hupcoming
    simp [answers, hqueue, hdone, show t.decoder.upcoming = _ from hupcoming]
  | case4 t hqueue hdone decoder hnext ih =>
    have hupcoming := t.decoder.next_answers
    rw [hnext] at hupcoming
    have hanswers : answers { t with decoder, queue := t.state.finish.items, done := true } =
        t.answers := by
      simp [answers, hqueue, hdone, show t.decoder.upcoming = _ from hupcoming]
    rw [← hanswers]
    exact ih
  | case5 t hqueue hdone c decoder hnext ih =>
    have hupcoming := t.decoder.next_answers
    rw [hnext] at hupcoming
    have hanswers : answers
        { t with decoder, state := (t.state.scan c).2, queue := (t.state.scan c).1.items } =
        t.answers := by
      simp [answers, hqueue, hdone, show t.decoder.upcoming = _ from hupcoming]
    rw [← hanswers]
    exact ih

end Cursor

/-! ## Findings -/

/-- How far the findings about a source have been handed out. -/
structure LintCursor where
  tokens : Cursor
  /-- The findings about the last token that are not handed out yet. -/
  pending : List Finding := []
  /-- The last token. -/
  previous : Option Token := none

/-- The findings about a source, from the beginning. -/
def Source.lintCursor (source : Source) : LintCursor := { tokens := source.cursor }

namespace LintCursor

/-- The next finding: one that is waiting, a structural one, or the first about the tokens to
come. -/
def next (k : Knowledge) (e : LintCursor) : Option (Except Fault Finding) × LintCursor :=
  match e.pending with
  | f :: pending => (some (.ok f), { e with pending })
  | [] =>
    match _ : e.tokens.next with
    | (none, tokens) => (none, { e with tokens })
    | (some (.error failure), tokens) => (some (.error (.unreadable failure)), { e with tokens })
    | (some (.ok (.finding f)), tokens) => (some (.ok f), { e with tokens })
    | (some (.ok (.token t)), tokens) =>
      match lintTree k .topLevel (e.previous.filter fun p => t.previous = some p.id) t with
      | .error fault => (some (.error fault), { e with tokens })
      | .ok found => next k { tokens, pending := found, previous := some t }
termination_by e.tokens.answers.length
decreasing_by
  next hnext =>
    rw [Cursor.handsOut.answers_eq_cons hnext]
    exact Nat.lt_succ_self _

/-- The answers to the calls that go through the findings about items, given the last token before
them. -/
def answersOf (k : Knowledge) (previous : Option Token) :
    List (Except ReadError Item) → List (Except Fault Finding)
  | [] => []
  | .error failure :: rest => .error (.unreadable failure) :: answersOf k previous rest
  | .ok (.finding f) :: rest => .ok f :: answersOf k previous rest
  | .ok (.token t) :: rest =>
    match lintTree k .topLevel (previous.filter fun p => t.previous = some p.id) t with
    | .error fault => .error fault :: answersOf k previous rest
    | .ok found => found.map .ok ++ answersOf k (some t) rest

/-- The answers to the calls to come. -/
def answers (k : Knowledge) (e : LintCursor) : List (Except Fault Finding) :=
  e.pending.map .ok ++ answersOf k e.previous e.tokens.answers

theorem handsOut (k : Knowledge) : HandsOut (next k) (answers k) := by
  intro e
  fun_induction next k e with
  | case1 e f pending hpending => simp [answers, hpending]
  | case2 e hpending tokens hnext =>
    have htokens := Cursor.handsOut.answers_eq_nil hnext
    simp [answers, answersOf, hpending, htokens]
  | case3 e hpending failure tokens hnext =>
    have htokens := Cursor.handsOut.answers_eq_cons hnext
    simp [answers, answersOf, hpending, htokens]
  | case4 e hpending f tokens hnext =>
    have htokens := Cursor.handsOut.answers_eq_cons hnext
    simp [answers, answersOf, hpending, htokens]
  | case5 e hpending t tokens hnext fault hlint =>
    have htokens := Cursor.handsOut.answers_eq_cons hnext
    simp [answers, answersOf, hpending, htokens, hlint]
  | case6 e hpending t tokens hnext found hlint ih =>
    have htokens := Cursor.handsOut.answers_eq_cons hnext
    have hanswers : answers k { tokens, pending := found, previous := some t } = e.answers k := by
      simp [answers, answersOf, hpending, htokens, hlint]
    rw [← hanswers]
    exact ih

/-- All findings, or the first failure: calls until nothing is returned. -/
def collect (k : Knowledge) (e : LintCursor) : Except Fault (List Finding) :=
  match _ : e.next k with
  | (none, _) => .ok []
  | (some (.error fault), _) => .error fault
  | (some (.ok f), e) => (collect k e).map (f :: ·)
termination_by (e.answers k).length
decreasing_by
  next hnext =>
    rw [(handsOut k).answers_eq_cons hnext]
    exact Nat.lt_succ_self _

/-- Collecting gives all answers, or the first that is a failure. -/
theorem collect_eq (k : Knowledge) (e : LintCursor) : e.collect k = (e.answers k).mapM id := by
  fun_induction collect k e with
  | case1 e e' hnext =>
    rw [((handsOut k).answers_eq_nil hnext).1]
    rfl
  | case2 e fault e' hnext =>
    rw [(handsOut k).answers_eq_cons hnext]
    rfl
  | case3 e f e' hnext ih =>
    rw [(handsOut k).answers_eq_cons hnext, ih, List.mapM_cons]
    cases (e'.answers k).mapM id <;> rfl

end LintCursor

end Stylesheet
