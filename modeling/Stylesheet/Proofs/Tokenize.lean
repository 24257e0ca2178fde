import Stylesheet.Proofs.Scan.Coverage
import Stylesheet.Proofs.Scan.Growth
import Stylesheet.Tokenize

set_option autoImplicit false

/-! # The tokens of a source

No text of a source is lost or claimed twice (`Source.textSpans_tokenize`), and its tokens form
well-formed trees, also when reading it fails halfway. None of the tokens owes its span to
`Position.widen`: whatever finishes a token gives it a stop that lies after its start
(`Unwidened`). -/

namespace Stylesheet

namespace Scan

/-- The states in which the rules see the character `c` while it is scanned in the state `s`: the
one right after the character has joined the window, and one more after every token that hands the
character on. -/
inductive Pass (s : State) (c : Char) : State → Prop
  | first : Pass s c (s.arrive c)
  | again {mid : State} (rule : Rule) (t : Token) (hpass : Pass s c mid)
      (ht : (rule.scan mid).1.token? = some t) (hcontinues : State.continues t.type rule c = true) :
      Pass s c (((rule.scan mid).2.complete t).2.pushAgain c)

/-- A rule that finishes a token claims the character. -/
theorem claim_of_token {s : State} {cs : List Char} {c : Char} {rule : Rule} {t : Token}
    (hs : s.Offered cs c) (ht : (rule.scan s).1.token? = some t) :
    Claim s c rule (rule.scan s).1 (rule.scan s).2 := by
  have hrule : rule ≠ .lineEnding := by
    rintro rfl
    simp [Rule.scan, hs.last, State.scanLineEnding, Outcome.token?] at ht
  rcases Rule.scan_cases hs.last hrule with hskip | hclaim
  · rw [hskip] at ht
    simp [Outcome.token?] at ht
  · exact hclaim

/-- What holds when a character is offered to the rules holds in every pass. -/
theorem Pass.grown {cs : List Char} {c : Char} {mid : State}
    (h : Pass (State.after {} cs) c mid) : mid.Offered cs c ∧ ∃ items, Grown items mid := by
  induction h with
  | first =>
    exact ⟨(State.settled_after cs).arrive c, _, (State.grown_after cs).arrive c⟩
  | again rule t _ ht hcontinues ih =>
    obtain ⟨hs, items, hg⟩ := ih
    have hclaim := claim_of_token hs ht
    obtain ⟨hs', hg'⟩ := (State.preserves_grown cs c).again_of_token ⟨hs, hg⟩ hclaim ht hcontinues
    exact ⟨hs'.toOffered, _, hg'⟩

/-- No token of the text is widened. The first part is about the tokens that a rule finishes, and
the others about what is still open at the end and closed there. -/
structure Unwidened (cs : List Char) : Prop where
  finished : ∀ (before : List Char) (c : Char) (after : List Char) (mid : State) (rule : Rule)
    (t : Token), cs = before ++ c :: after → Pass (State.after {} before) c mid →
    (rule.scan mid).1.token? = some t → t.start < rule.stop mid c ∧ t.stop = rule.stop mid c
  comment : ∀ k, (State.after {} cs).comment = some k → k.start < (State.after {} cs).next
  current : ∀ o, (State.after {} cs).current = some o → o.start < (State.after {} cs).next
  blocks : ∀ b ∈ (State.after {} cs).blocks, b.start < (State.after {} cs).next

theorem unwidened (cs : List Char) : Unwidened cs := by
  obtain ⟨hcomment, hcurrent, hblocks⟩ :=
    (State.grown_after cs).start_lt_next (State.settled_after cs)
  refine ⟨?_, hcomment, hcurrent, hblocks⟩
  intro before c after mid rule t _ hpass ht
  obtain ⟨hs, items, hg⟩ := hpass.grown
  obtain ⟨-, ⟨id, content, start, rfl, hleaf⟩ | ⟨b, blocks, hb, -, -, hstop, rfl⟩⟩ :=
    (claim_of_token hs ht).finishes hs ht
  · rw [Token.stop_ofLeaf, Position.widen_of_lt hleaf.start_lt_stop]
    exact ⟨hleaf.start_lt_stop, rfl⟩
  · have hlt : b.start < mid.next := (hg.next.2 b (by simp [hb])).1
    rw [hstop, OpenBlock.close, Token.stop_ofChildren, Position.widen_of_lt hlt]
    exact ⟨hlt, rfl⟩

end Scan

namespace Source

/-- The items of a source that cannot be read to its end are those of what was read. -/
theorem items_tokenize_of_failure {source : Source} {failure : ReadError}
    (h : source.characters.failure = some failure) :
    source.tokenize.items = Scan.State.itemsOf {} source.characters.items := by
  simp [tokenize, outputs, h, Scan.State.itemsOf]

/-- The text spans of a source share out its text. No two of them overlap; every character that is
not blank, opens or ends nothing and stands in no comment lies in exactly one, unless reading failed
before the end of the source; and the findings among them come in the order in which they begin. -/
theorem textSpans_tokenize (source : Source) :
    (textSpans source.tokenize.items).Pairwise Span.Disjoint ∧
    (source.characters.failure = none → ∀ before c after,
      source.characters.items = before ++ c :: after → Text.isBlank c = false →
      c ≠ '{' → c ≠ '}' → c ≠ ';' →
      ¬ Scan.Commented source.characters.items (Position.start.advanceAll before) →
      (textSpans source.tokenize.items).countP (·.Contains (Position.start.advanceAll before)) =
        1) ∧
    (structuralFindings source.tokenize.items).Pairwise fun f g => f.start < g.start := by
  cases hfailure : source.characters.failure with
  | none =>
    rw [items_tokenize hfailure]
    obtain ⟨hdisjoint, hcovered, hfindings⟩ := Scan.textSpans_scanText source.characters.items
    exact ⟨hdisjoint, fun _ => hcovered, hfindings⟩
  | some failure =>
    -- what is still open when reading fails never comes out
    rw [items_tokenize_of_failure hfailure]
    have htiling := Scan.State.tiling_after source.characters.items
    exact ⟨(List.pairwise_append.1 htiling.disjoint).1, by simp, htiling.findings⟩

/-- The selector of a rule after a comment. -/
theorem textSpans_tokenize_comment :
    ¬ Scan.Commented "/**/a{}".toList ⟨1, 5⟩ ∧
    (textSpans (tokenize [.bytes [0x2F, 0x2A, 0x2A, 0x2F, 0x61, 0x7B, 0x7D]]).items).countP
      (·.Contains ⟨1, 5⟩) = 1 := by
  have hopen : ∀ n ∈ List.range 8, ∀ k ∈ (Scan.State.after {} ("/**/a{}".toList.take n)).comment,
      ¬ (k.start ≤ (⟨1, 5⟩ : Position) ∧
        (⟨1, 5⟩ : Position) < Position.start.advanceAll ("/**/a{}".toList.take (n + 1))) := by
    decide +kernel
  have hcommented : ¬ Scan.Commented "/**/a{}".toList ⟨1, 5⟩ := by
    rintro ⟨before, after, k, hsplit, hk, hle, hlt⟩
    have hlength : before.length < 8 := by
      have := congrArg List.length hsplit
      simp at this
      omega
    have hbefore : "/**/a{}".toList.take before.length = before := by simp [hsplit]
    have htake : "/**/a{}".toList.take (before.length + 1) = before ++ after.take 1 := by
      rw [hsplit, List.take_length_add_append]
    refine hopen before.length (List.mem_range.2 hlength) k ?_ ⟨hle, ?_⟩
    · rw [hbefore]
      exact hk
    · rw [htake]
      exact hlt
  have hcharacters : characters [.bytes [0x2F, 0x2A, 0x2A, 0x2F, 0x61, 0x7B, 0x7D]] =
      { items := "/**/a{}".toList } := by decide +kernel
  refine ⟨hcommented, ?_⟩
  have h := textSpans_tokenize [.bytes [0x2F, 0x2A, 0x2A, 0x2F, 0x61, 0x7B, 0x7D]]
  rw [hcharacters] at h
  exact h.2.1 rfl "/**/".toList 'a' "{}".toList (by decide) (by decide) (by decide) (by decide)
    (by decide) hcommented

/-- The tokens of every source are well formed: siblings follow each other and are linked, children
lie inside their block, numbers grow in source order and declarations stand in blocks. No span had
to be widened for that. -/
theorem wellFormed_tokenize (source : Source) :
    WellFormed (tokensOf source.tokenize.items) ∧ Scan.Unwidened source.characters.items := by
  refine ⟨?_, Scan.unwidened _⟩
  have hg := Scan.State.grown_after source.characters.items
  cases hfailure : source.characters.failure with
  | none =>
    obtain ⟨s, hs⟩ := hg.finish (Scan.State.settled_after _)
    rw [items_tokenize hfailure]
    exact hs.wellFormed
  | some failure =>
    rw [items_tokenize_of_failure hfailure]
    exact hg.toForest.wellFormed

end Source

end Stylesheet
