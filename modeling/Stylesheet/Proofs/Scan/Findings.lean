import Stylesheet.Proofs.Scan.Reading

set_option autoImplicit false

/-! # What scanning reports

While characters are scanned, only text that nothing claims is reported, or a brace that closes
nothing (`Issue.isStray`). What is still open and what is left over is reported at the end. -/

namespace Stylesheet

/-- The issue is about text that became no token before a brace or semicolon, or about the brace. -/
def Issue.isStray : Issue → Bool
  | strayContent _ | strayBrace | forbiddenCharacter .. | unclaimedSelector _ => true
  | _ => false

/-- The issue is about the end of the source. -/
def Issue.isFinal : Issue → Bool
  | unclosed _ | leftover _ => true
  | _ => false

namespace Scan

theorem isStray_headerIssue (text : List Char) : (State.headerIssue text).isStray = true := by
  unfold State.headerIssue
  split <;> rfl

theorem Claim.isStray {s s' : State} {c : Char} {rule : Rule} {outcome : Outcome}
    (h : Claim s c rule outcome s') {f : Finding} (hf : outcome.finding? = some f) :
    f.issue.isStray = true := by
  cases h with
  | rejectContent | closeBlockAfter | strayBrace | strayContent =>
    simp only [Outcome.finding?, Option.some.injEq] at hf
    rw [← hf]
    rfl
  | openUnclaimed =>
    simp only [Outcome.finding?, Option.some.injEq] at hf
    rw [← hf]
    exact isStray_headerIssue _
  | _ => simp [Outcome.finding?] at hf

/-- A claim adds the finding it makes and no other. -/
theorem Outcome.mem_findingsOf_found {outcome : Outcome} {f : Finding} :
    f ∈ findingsOf outcome.found ↔ outcome.finding? = some f := by
  cases hfinding : outcome.finding? with
  | none => simp [Outcome.found, hfinding]
  | some g => simp [Outcome.found, hfinding, eq_comm]

theorem findingsOf_complete (s : State) (t : Token) : findingsOf (s.complete t).1 = [] :=
  findingsOf_accept _ _

namespace State

/-- What holds of the finding that a claim makes, whichever it is, scanning keeps of all
findings. -/
theorem preserves_forall_findings {P : Finding → Prop} {cs : List Char} {c : Char}
    (hclaim : ∀ {s rule outcome s' f}, Claim s c rule outcome s' → outcome.finding? = some f →
      P f) :
    Preserves c (fun items s => s.Offered cs c ∧ ∀ f ∈ findingsOf items, P f)
      (fun items s => s.OfferedAgain cs c ∧ ∀ f ∈ findingsOf items, P f)
      (fun items _ => ∀ f ∈ findingsOf items, P f) := by
  have hfound {items : List Item} {s s' : State} {rule : Rule} {outcome : Outcome}
      (h : Claim s c rule outcome s') (hitems : ∀ f ∈ findingsOf items, P f) :
      ∀ f ∈ findingsOf (items ++ outcome.found), P f := by
    intro f hf
    rw [findingsOf_append, List.mem_append, Outcome.mem_findingsOf_found] at hf
    exact hf.elim (hitems f) (hclaim h)
  refine ⟨fun h => h.1.last, fun h => ⟨h.1.toOffered, h.2⟩, fun h => h.2, fun h _ => h.2,
    fun h hc _ => hfound hc h.2, ?_, ?_⟩
  · intro items s rule outcome s' t h hc _ _
    rw [findingsOf_append, findingsOf_complete, List.append_nil]
    exact hfound hc h.2
  · intro items s rule outcome s' t h hc ht _
    rw [findingsOf_append, findingsOf_complete, List.append_nil]
    exact ⟨hc.offeredAgain h.1 ht, hfound hc h.2⟩

/-- Scanning characters reports stray text only. -/
theorem isStray_of_mem_itemsOf (cs : List Char) :
    ∀ f ∈ findingsOf (itemsOf {} cs), f.issue.isStray = true := by
  induction cs using List.reverseRecOn with
  | nil => simp
  | append_singleton cs c ih =>
    rw [itemsOf_concat]
    exact (preserves_forall_findings fun h hf => h.isStray hf).scan _
      ⟨(settled_after cs).arrive c, ih⟩

/-! ## The end of the source -/

theorem isFinal_finishComment (s : State) :
    ∀ f ∈ findingsOf s.finishComment.1, f.issue.isFinal = true := by
  unfold finishComment
  split
  · simp
  · dsimp only
    split <;> simp [unclosed, findingsOf_accept, Finding.spanning, Issue.isFinal]

theorem isFinal_finishCurrent (s : State) :
    ∀ f ∈ findingsOf s.finishCurrent.1, f.issue.isFinal = true := by
  unfold finishCurrent
  split
  · simp
  · dsimp only
    split <;> simp [unclosed, findingsOf_accept, Finding.spanning, Issue.isFinal]

theorem isFinal_finishBlock (stop : Position) (last : Option TokenId) (b : OpenBlock)
    (around : List OpenBlock) :
    ∀ f ∈ findingsOf (finishBlock stop last b around).items, f.issue.isFinal = true := by
  induction around generalizing b with
  | nil => simp [finishBlock, Finding.spanning, Issue.isFinal]
  | cons outer rest ih =>
    intro f hf
    simp only [finishBlock, Output.items_append, List.singleton_append, findingsOf_cons_finding,
      List.mem_cons] at hf
    rcases hf with rfl | hf
    · rfl
    · exact ih _ f hf

theorem isFinal_finish (s : State) : ∀ f ∈ findingsOf s.finish.items, f.issue.isFinal = true := by
  intro f hf
  simp only [finish, findingsOf_append, List.mem_append] at hf
  rcases hf with ((hf | hf) | hf) | hf
  · exact isFinal_finishComment _ f hf
  · exact isFinal_finishCurrent _ f hf
  · unfold finishBlocks at hf
    split at hf
    · simp at hf
    · exact isFinal_finishBlock _ _ _ _ f hf
  · unfold leftover at hf
    split at hf
    · simp at hf
    · simp only [findingsOf_cons_finding, findingsOf_nil, List.mem_singleton] at hf
      rw [hf]
      rfl

end State

end Scan

end Stylesheet
