import Stylesheet.Lint
import Stylesheet.Proofs.Tokenize

set_option autoImplicit false

/-! # Linting step by step

Linting asks for the token before another one by its number. The tokens of a run are linked and
numbered so that this is the token right before it in the same sequence. Linting a source is thus a
matter of going through its items in order (`Source.steps`): structural findings are passed on, and
every token is checked in the scope of the block it is in and of the token right before that
block. -/

namespace Stylesheet

/-! ## Steps -/

/-- What linting does next. -/
inductive LintStep where
  /-- Passes a structural finding on. -/
  | report (f : Finding)
  /-- Checks a token in its scope. -/
  | check (scope : Scope) (t : Token)

/-- The findings about a token in its scope. -/
def Check.token (k : Knowledge) (scope : Scope) : Token → List Finding
  | .leaf place (.atRule name value isBlock) => Check.atRule k place name value isBlock
  | .leaf place (.property name value) => Check.property k scope place name value
  | .leaf place (.selector text anchors) => Check.selector place text anchors
  | .leaf place (.whitespace text) => Check.indentation k place text
  | _ => []

def LintStep.findings (k : Knowledge) : LintStep → List Finding
  | report f => [f]
  | check scope t => Check.token k scope t

mutual

/-- The steps for a token and everything in it; `previous` is the token right before it. -/
def Token.steps (scope : Scope) (previous : Option Token) : Token → List LintStep
  | .leaf place content => [.check scope (.leaf place content)]
  | .block place children =>
    .check scope (.block place children) ::
      Token.stepsAll ⟨some (.block place children), previous⟩ none children

/-- The steps for a sequence of tokens, of which the first comes right after `previous`. -/
def Token.stepsAll (scope : Scope) (previous : Option Token) : List Token → List LintStep
  | [] => []
  | t :: ts => t.steps scope previous ++ Token.stepsAll scope (some t) ts

end

/-- The steps for the items of a stream; `previous` is the last token before them. -/
def stepsOf (previous : Option Token) : List Item → List LintStep
  | [] => []
  | .finding f :: items => .report f :: stepsOf previous items
  | .token t :: items => t.steps .topLevel previous ++ stepsOf (some t) items

/-- The steps that linting a source takes. -/
def Source.steps (source : Source) : List LintStep := stepsOf none source.tokenize.items

/-! ## The token before -/

/-- No checker is handed a token that it does not support. -/
theorem checkToken_eq (k : Knowledge) (scope : Scope) (t : Token) :
    checkToken k scope t = .ok (Check.token k scope t) := by
  have hone (found : List Finding) :
      (do return [found].flatten : Except Fault (List Finding)) = .ok found := by
    simp [pure, Except.pure]
  cases t with
  | leaf place content =>
    cases content with
    | comment => rfl
    | _ => exact hone _
  | block place children => rfl

/-- A token is found among its siblings by its number. -/
theorem find?_id_eq_some {ts : List Token} (hids : (ts.map Token.id).Pairwise (· < ·)) {t : Token}
    (ht : t ∈ ts) : Token.find? ts t.id = some t := by
  induction ts with
  | nil => simp at ht
  | cons first ts ih =>
    rw [List.map_cons, List.pairwise_cons] at hids
    rcases List.mem_cons.1 ht with rfl | ht
    · simp [Token.find?]
    · have hne : first.id ≠ t.id := ne_of_lt (hids.1 t.id (List.mem_map_of_mem ht))
      rw [Token.find?, List.find?_cons, beq_eq_false_iff_ne.2 hne]
      exact ih hids.2 ht

theorem map_id_sublist_ids (ts : List Token) :
    (ts.map Token.id).Sublist (ts.flatMap Token.ids) := by
  induction ts with
  | nil => exact List.Sublist.refl _
  | cons t ts ih =>
    rw [List.map_cons, List.flatMap_cons, Token.ids_eq_cons, List.cons_append]
    exact (ih.trans (List.sublist_append_right _ _)).cons_cons _

/-- The token that another one names as the one before it is just that. -/
theorem Siblings.find?_previous {parent : Option TokenId} {front rest : List Token} {t : Token}
    (h : Siblings parent (front ++ t :: rest))
    (hids : ((front ++ t :: rest).flatMap Token.ids).Pairwise (· < ·)) :
    t.previous.bind (Token.find? (front ++ t :: rest)) = front.getLast? := by
  rw [h.previous_eq]
  cases hlast : front.getLast? with
  | none => rfl
  | some last =>
    exact find?_id_eq_some (hids.sublist (map_id_sublist_ids _))
      (List.mem_append_left _ (List.mem_of_getLast? hlast))

/-- The last token of a sequence passes the test whether the next one names it. -/
theorem Siblings.filter_previous {parent : Option TokenId} {front rest : List Token} {t : Token}
    (h : Siblings parent (front ++ t :: rest)) :
    front.getLast?.filter (fun p => t.previous = some p.id) = front.getLast? := by
  rw [h.previous_eq]
  cases front.getLast? <;> simp

/-! ## Trees -/

mutual

/-- Linting a token takes the steps for it. -/
theorem lintTree_eq (k : Knowledge) (scope : Scope) (previous : Option Token) (t : Token)
    (hsound : t.Sound) (hids : t.ids.Pairwise (· < ·)) :
    lintTree k scope previous t = .ok ((t.steps scope previous).flatMap (LintStep.findings k)) := by
  cases t with
  | leaf place content =>
    rw [lintTree, checkToken_eq, Token.steps]
    simp [LintStep.findings]
  | block place children =>
    obtain ⟨hself, hchildren⟩ := Token.sound_iff.1 hsound
    rw [Token.ids_eq_cons, List.pairwise_cons] at hids
    have hnested := lintSequence_eq k ⟨some (.block place children), previous⟩ [] children
      hself.siblings hchildren hids.2
    rw [lintTree, checkToken_eq, Token.steps]
    simp only [List.nil_append] at hnested
    simp [hnested, LintStep.findings, bind, Except.bind, pure, Except.pure]

/-- Linting a sequence of tokens takes the steps for them. -/
theorem lintSequence_eq (k : Knowledge) (scope : Scope) (front ts : List Token)
    {parent : Option TokenId} (hsiblings : Siblings parent (front ++ ts))
    (hsound : ∀ t ∈ ts, t.Sound)
    (hids : ((front ++ ts).flatMap Token.ids).Pairwise (· < ·)) :
    lintSequence k scope (front ++ ts) ts =
      .ok ((Token.stepsAll scope front.getLast? ts).flatMap (LintStep.findings k)) := by
  cases ts with
  | nil => rfl
  | cons t ts =>
    -- the token before is looked up in the whole sequence, which includes what was checked already
    have hprevious := hsiblings.find?_previous hids
    have hfirst := lintTree_eq k scope front.getLast? t (hsound t (List.mem_cons_self ..))
      ((List.pairwise_flatMap.1 hids).1 t (by simp))
    rw [List.append_cons] at hsiblings hids
    have hrest := lintSequence_eq k scope (front ++ [t]) ts hsiblings
      (fun u hu => hsound u (List.mem_cons_of_mem _ hu)) hids
    rw [List.getLast?_concat, ← List.append_cons] at hrest
    rw [lintSequence, hprevious, hfirst, hrest, Token.stepsAll, List.flatMap_append]
    rfl

end

/-! ## Items -/

/-- Linting the items of a stream takes the steps for them, given the tokens before them. -/
theorem lintItems_eq (k : Knowledge) (front : List Token) (items : List Item)
    (hsiblings : Siblings none (front ++ tokensOf items))
    (hsound : ∀ t ∈ tokensOf items, t.Sound)
    (hids : ((front ++ tokensOf items).flatMap Token.ids).Pairwise (· < ·)) :
    lintItems k front.getLast? items =
      { items := (stepsOf front.getLast? items).flatMap (LintStep.findings k) } := by
  induction items generalizing front with
  | nil => rfl
  | cons item items ih =>
    cases item with
    | finding f =>
      rw [lintItems, ih front hsiblings hsound hids]
      rfl
    | token t =>
      rw [tokensOf_cons_token] at hsiblings hsound hids
      have hprevious := hsiblings.filter_previous
      have hfirst := lintTree_eq k .topLevel front.getLast? t (hsound t (List.mem_cons_self ..))
        ((List.pairwise_flatMap.1 hids).1 t (by simp))
      rw [List.append_cons] at hsiblings hids
      have hrest := ih (front ++ [t]) hsiblings
        (fun u hu => hsound u (List.mem_cons_of_mem _ hu)) hids
      rw [List.getLast?_concat] at hrest
      simp only [lintItems, hprevious, hfirst, hrest, stepsOf, List.flatMap_append]

namespace Source

/-- The items of a source form a forest. -/
theorem forest_tokenize (source : Source) : ∃ s, Scan.Forest source.tokenize.items s := by
  have hg := Scan.State.grown_after source.characters.items
  cases hfailure : source.characters.failure with
  | none =>
    rw [items_tokenize hfailure]
    exact hg.finish (Scan.State.settled_after _)
  | some failure =>
    rw [items_tokenize_of_failure hfailure]
    exact ⟨_, hg.toForest⟩

/-- Linting the items of a source takes its steps in order, and nothing fails on the way. -/
theorem lintItems_tokenize (source : Source) (k : Knowledge) :
    lintItems k none source.tokenize.items =
      { items := source.steps.flatMap (LintStep.findings k) } := by
  obtain ⟨s, hs⟩ := source.forest_tokenize
  obtain ⟨hsiblings, hall⟩ := hs.nested.outermost
  have hids := hs.increasing.sublist (Scan.numbers_outermost source.tokenize.items s.blocks)
  exact lintItems_eq k [] source.tokenize.items hsiblings (fun t ht => (hall t ht).1) hids

theorem items_findings (source : Source) (k : Knowledge) :
    (source.findings k).items = source.steps.flatMap (LintStep.findings k) := by
  rw [findings, lintItems_tokenize]

end Source

end Stylesheet
