import Mathlib.Data.List.Nodup
import Stylesheet.Proofs.Linting
import Stylesheet.Proofs.Scan.Openers
import Stylesheet.Proofs.Source

set_option autoImplicit false

/-! # Which at-rule restricts a declaration

A declaration is checked in the scope of the block it is in, and the token right before that block
decides which properties are known. For an at-rule with a block this is the token that the brace of
the block has finished. An at-rule that ends in a semicolon counts as well when a block without a
header comes right after it, although it did not open the block
(`Source.restrictingAtRule_of_check`). -/

namespace Stylesheet

/-! ## The scopes of the steps -/

/-- The scope is that of a block in the sequence, and the token stands in that block. -/
def InSequence (seq : List Token) (scope : Scope) (t : Token) : Prop :=
  ∃ front b rest, seq = front ++ b :: rest ∧ scope = ⟨some b, front.getLast?⟩ ∧ t ∈ b.children

mutual

theorem Token.mem_steps (t : Token) {outer scope : Scope} {previous : Option Token} {u : Token}
    (h : .check scope u ∈ t.steps outer previous) :
    scope = outer ∧ u = t ∨ scope = ⟨some t, previous⟩ ∧ u ∈ t.children ∨
      ∃ c ∈ t.preorder, InSequence c.children scope u := by
  cases t with
  | leaf place content =>
    rw [Token.steps, List.mem_singleton, LintStep.check.injEq] at h
    exact Or.inl h
  | block place children =>
    rw [Token.steps, List.mem_cons, LintStep.check.injEq] at h
    rcases h with h | h
    · exact Or.inl h
    · refine Or.inr ?_
      rcases Token.mem_stepsAll [] children h with h | h | ⟨c, hc, h⟩
      · exact Or.inl h
      · exact Or.inr ⟨_, List.mem_cons_self .., h⟩
      · exact Or.inr ⟨c, List.mem_cons_of_mem _ hc, h⟩

theorem Token.mem_stepsAll (front ts : List Token) {outer scope : Scope} {u : Token}
    (h : .check scope u ∈ Token.stepsAll outer front.getLast? ts) :
    scope = outer ∧ u ∈ ts ∨ InSequence (front ++ ts) scope u ∨
      ∃ c ∈ preorderAll ts, InSequence c.children scope u := by
  cases ts with
  | nil => simp [Token.stepsAll] at h
  | cons t ts =>
    rw [Token.stepsAll, List.mem_append] at h
    rcases h with h | h
    · rcases Token.mem_steps t h with ⟨hscope, rfl⟩ | ⟨hscope, hu⟩ | ⟨c, hc, h⟩
      · exact Or.inl ⟨hscope, List.mem_cons_self ..⟩
      · exact Or.inr (Or.inl ⟨front, t, ts, rfl, hscope, hu⟩)
      · exact Or.inr (Or.inr ⟨c, List.mem_append_left _ hc, h⟩)
    · -- the tokens already passed go along, so that the last of them is the one before
      rw [← List.getLast?_concat (a := t) (l := front)] at h
      rcases Token.mem_stepsAll (front ++ [t]) ts h with ⟨hscope, hu⟩ | h | ⟨c, hc, h⟩
      · exact Or.inl ⟨hscope, List.mem_cons_of_mem _ hu⟩
      · rw [← List.append_cons] at h
        exact Or.inr (Or.inl h)
      · exact Or.inr (Or.inr ⟨c, List.mem_append_right _ hc, h⟩)

end

theorem mem_stepsOf (front : List Token) (items : List Item) {scope : Scope} {u : Token}
    (h : .check scope u ∈ stepsOf front.getLast? items) :
    scope = .topLevel ∧ u ∈ tokensOf items ∨ InSequence (front ++ tokensOf items) scope u ∨
      ∃ c ∈ (tokensOf items).flatMap Token.preorder, InSequence c.children scope u := by
  induction items generalizing front with
  | nil => simp [stepsOf] at h
  | cons item items ih =>
    cases item with
    | finding f =>
      rw [stepsOf, List.mem_cons] at h
      rcases h with h | h
      · exact absurd h (by simp)
      · exact ih front h
    | token t =>
      rw [stepsOf, List.mem_append] at h
      rw [tokensOf_cons_token, List.flatMap_cons]
      rcases h with h | h
      · rcases Token.mem_steps t h with ⟨hscope, rfl⟩ | ⟨hscope, hu⟩ | ⟨c, hc, h⟩
        · exact Or.inl ⟨hscope, List.mem_cons_self ..⟩
        · exact Or.inr (Or.inl ⟨front, t, tokensOf items, rfl, hscope, hu⟩)
        · exact Or.inr (Or.inr ⟨c, List.mem_append_left _ hc, h⟩)
      · rw [← List.getLast?_concat (a := t) (l := front)] at h
        rcases ih (front ++ [t]) h with ⟨hscope, hu⟩ | h | ⟨c, hc, h⟩
        · exact Or.inl ⟨hscope, List.mem_cons_of_mem _ hu⟩
        · rw [← List.append_cons] at h
          exact Or.inr (Or.inl h)
        · exact Or.inr (Or.inr ⟨c, List.mem_append_right _ hc, h⟩)

namespace Source

/-- All tokens of a source, at any depth. -/
def tokens (source : Source) : List Token :=
  (tokensOf source.tokenize.items).flatMap Token.preorder

/-- The token was finished by the brace at `p`. -/
def FinishedBy (source : Source) (p : Position) (t : Token) : Prop :=
  ∃ before after, source.characters.items = before ++ '{' :: after ∧
    Position.start.advanceAll before = p ∧
    (Scan.State.after {} (before ++ ['{'])).finishedId? = some t.id

/-- The blocks of a source come after what their braces have finished. -/
theorem headedAll_tokenize (source : Source) :
    Token.HeadedAll (Scan.Heads source.characters.items) none (tokensOf source.tokenize.items) := by
  have hopeners := Scan.openers_after source.characters.items
  cases hfailure : source.characters.failure with
  | none =>
    rw [items_tokenize hfailure]
    exact hopeners.headers.finish
  | some failure =>
    rw [items_tokenize_of_failure hfailure]
    exact hopeners.headers.outermost

/-- A token of a source is determined by its number. -/
theorem eq_of_id_eq (source : Source) {t u : Token} (ht : t ∈ source.tokens)
    (hu : u ∈ source.tokens) (h : t.id = u.id) : t = u := by
  obtain ⟨s, hs⟩ := source.forest_tokenize
  have hids := hs.wellFormed.increasing.imp ne_of_lt
  exact List.inj_on_of_nodup_map hids ht hu h

/-- A token in a block of a sequence of the source is checked in the scope of that block and of the
token before it. -/
theorem scope_of_inSequence (source : Source) {seq : List Token} {parent : Option TokenId}
    (hsiblings : Siblings parent seq)
    (hheaded : Token.HeadedAll (Scan.Heads source.characters.items) none seq)
    (hmem : ∀ t ∈ seq, t ∈ source.tokens) {scope : Scope} {t : Token}
    (h : InSequence seq scope t) :
    ∃ b ∈ source.tokens, scope.block = some b ∧ t ∈ b.children ∧
      b.previous = scope.opener.map Token.id ∧ (∀ o, scope.opener = some o → o ∈ source.tokens) ∧
      Scan.Heads source.characters.items scope.opener b.start := by
  obtain ⟨front, b, rest, rfl, rfl, ht⟩ := h
  refine ⟨b, hmem b (by simp), rfl, ht, hsiblings.previous_eq, ?_, ?_⟩
  · intro o ho
    exact hmem o (List.mem_append_left _ (List.mem_of_getLast? ho))
  · rw [Token.headedAll_append, Option.or_none] at hheaded
    cases b with
    | leaf place content => simp [Token.children] at ht
    | block place children => exact hheaded.2.1.1

/-- A declaration is checked in the scope of the block it is in and of the token before that
block. -/
theorem scope_of_check (source : Source) {scope : Scope} {t : Token}
    (h : .check scope t ∈ source.steps) (htype : t.type = .property) :
    ∃ b ∈ source.tokens, scope.block = some b ∧ t ∈ b.children ∧
      b.previous = scope.opener.map Token.id ∧ (∀ o, scope.opener = some o → o ∈ source.tokens) ∧
      Scan.Heads source.characters.items scope.opener b.start := by
  obtain ⟨s, hs⟩ := source.forest_tokenize
  obtain ⟨hsiblings, hall⟩ := hs.nested.outermost
  have hheaded := source.headedAll_tokenize
  rcases mem_stepsOf [] source.tokenize.items h with ⟨-, ht⟩ | hin | ⟨c, hc, hin⟩
  · exact absurd htype (hall t ht).2
  · exact source.scope_of_inSequence hsiblings hheaded
      (fun u hu => List.mem_flatMap.2 ⟨u, hu, u.mem_preorder_self⟩) hin
  · have hc' := hc
    rw [← Token.preorderAll_eq_flatMap] at hc'
    refine source.scope_of_inSequence (hs.wellFormed.placed c hc).siblings
      (Token.HeadedAll.children _ hheaded c hc') ?_ hin
    intro u hu
    rw [tokens, ← Token.preorderAll_eq_flatMap]
    exact Token.mem_preorderAll_of_mem_children _ hc' hu

/-! ## Restricted declarations -/

/-- The at-rule named `a` restricts the declarations in the block `b` to its descriptors: the brace
of the block has finished it, or it ends in a semicolon and the block comes right after it. -/
def Restricts (source : Source) (k : Knowledge) (b : Token) (a : String) : Prop :=
  k.hasDescriptors a = true ∧ ∃ place value isBlock,
    .leaf place (.atRule a value isBlock) ∈ source.tokens ∧
    (isBlock = true ∧ source.FinishedBy b.start (.leaf place (.atRule a value isBlock)) ∨
      isBlock = false ∧ b.previous = some place.id)

theorem restrictingAtRule?_eq_some {k : Knowledge} {scope : Scope} {a : String} :
    Check.restrictingAtRule? k scope = some a ↔ k.hasDescriptors a = true ∧
      ∃ place value isBlock, scope.opener = some (.leaf place (.atRule a value isBlock)) := by
  have hatRule : scope.atRule? = some a ↔
      ∃ place value isBlock, scope.opener = some (.leaf place (.atRule a value isBlock)) := by
    unfold Scope.atRule?
    split
    · next place name value isBlock hopener => simp [hopener]
    · next hother =>
      simp only [reduceCtorEq, false_iff]
      rintro ⟨place, value, isBlock, hopener⟩
      exact hother place a value isBlock hopener
  rw [Check.restrictingAtRule?, Option.filter_eq_some_iff, hatRule, and_comm]

/-- What the brace after `before` has finished is told by its position. -/
theorem finishedBy_advanceAll (source : Source) {before after : List Char}
    (hsplit : source.characters.items = before ++ '{' :: after) {t : Token} :
    source.FinishedBy (Position.start.advanceAll before) t ↔
      (Scan.State.after {} (before ++ ['{'])).finishedId? = some t.id := by
  constructor
  · rintro ⟨before', after', hsplit', hposition, hid⟩
    obtain rfl : before = before' := Position.eq_of_advanceAll_eq ⟨_, hsplit.symm⟩
      ⟨_, hsplit'.symm⟩ hposition.symm
    exact hid
  · intro hid
    exact ⟨before, after, hsplit, rfl, hid⟩

/-- The brace of a block has finished an at-rule with a block just when this is the token before the
block. -/
theorem finishedBy_iff (source : Source) {previous : Option Token} {p : Position}
    (h : Scan.Heads source.characters.items previous p)
    (hprevious : ∀ o, previous = some o → o ∈ source.tokens) {t : Token} (ht : t ∈ source.tokens)
    (hrule : t.isBlockRule = true) : source.FinishedBy p t ↔ previous = some t := by
  obtain ⟨before, after, hsplit, rfl, hcases⟩ := h
  rw [source.finishedBy_advanceAll hsplit]
  constructor
  · intro hid
    rcases hcases with ⟨hnone, -⟩ | ⟨o, ho, hid'⟩
    · simp [hnone] at hid
    · rw [hid, Option.some.injEq] at hid'
      rw [ho, source.eq_of_id_eq (hprevious o ho) ht hid'.symm]
  · intro ho
    rcases hcases with ⟨-, hother⟩ | ⟨o, ho', hid⟩
    · simp [hother t ho] at hrule
    · rw [ho, Option.some.injEq] at ho'
      rw [ho', hid]

/-- Linting checks a declaration in the scope of the block it is in. Its name is looked up among the
descriptors of the at-rule that restricts the block, and in the general vocabulary if none does. -/
theorem restrictingAtRule_of_check (source : Source) (k : Knowledge) :
    (source.findings k).items = source.steps.flatMap (LintStep.findings k) ∧
    ∀ scope place name value,
      .check scope (.leaf place (.property name value)) ∈ source.steps →
      ∃ b ∈ source.tokens, scope.block = some b ∧ .leaf place (.property name value) ∈ b.children ∧
        (∀ a, Check.restrictingAtRule? k scope = some a ↔ source.Restricts k b a) ∧
        (Check.isCustomName name.toList = false → Check.isWellFormedName name.toList = true →
          Check.propertyIssues k scope name value =
            (match Check.restrictingAtRule? k scope with
              | some a => if k.hasDescriptor a name then [] else [.unknownDescriptor name a]
              | none => if k.hasProperty name then [] else [.unknownProperty name]) ++
            (if value.isNone then [.emptyPropertyValue name] else [])) := by
  refine ⟨source.items_findings k, ?_⟩
  intro scope place name value hcheck
  obtain ⟨b, hb, hblock, hchild, hprevious, hopener, hheads⟩ := source.scope_of_check hcheck rfl
  refine ⟨b, hb, hblock, hchild, ?_, ?_⟩
  · intro a
    rw [restrictingAtRule?_eq_some, Restricts, and_congr_right_iff]
    intro _
    constructor
    · rintro ⟨place, value, isBlock, ho⟩
      refine ⟨place, value, isBlock, hopener _ ho, ?_⟩
      cases isBlock with
      | true => exact Or.inl ⟨rfl, (source.finishedBy_iff hheads hopener (hopener _ ho) rfl).2 ho⟩
      | false => exact Or.inr ⟨rfl, by rw [hprevious, ho]; rfl⟩
    · rintro ⟨place, value, isBlock, hmem, ⟨rfl, hfinished⟩ | ⟨rfl, hlink⟩⟩
      · exact ⟨place, value, true, (source.finishedBy_iff hheads hopener hmem rfl).1 hfinished⟩
      · rw [hprevious, Option.map_eq_some_iff] at hlink
        obtain ⟨o, ho, hid⟩ := hlink
        exact ⟨place, value, false, by rw [ho, source.eq_of_id_eq (hopener o ho) hmem hid]⟩
  · intro hcustom hformed
    have hname : name ≠ "" := by
      rintro rfl
      simp [Check.isWellFormedName] at hformed
    rw [Check.propertyIssues, if_neg hname, Check.nameIssue?]
    simp only [hcustom, hformed, hblock, Option.isNone_some, Bool.not_true, Bool.false_eq_true,
      if_false]
    cases Check.restrictingAtRule? k scope with
    | none => cases k.hasProperty name <;> simp
    | some a => cases h : k.hasDescriptor a name <;> simp [h]

/-- A declaration in the block of an at-rule that has descriptors. -/
theorem restrictingAtRule_of_check_opened :
    ∃ b ∈ (ofString "@font-face{color:red;}").tokens,
      (ofString "@font-face{color:red;}").Restricts .builtIn b "font-face" := by
  have hcharacters : (ofString "@font-face{color:red;}").characters =
      { items := "@font-face{color:red;}".toList } := by
    rw [characters_ofString]
    decide +kernel
  have hitems : (ofString "@font-face{color:red;}").tokenize.items =
      [.token (.leaf ⟨0, none, none, ⟨1, 1⟩, ⟨1, 11⟩⟩ (.atRule "font-face" none true)),
        .token (.block ⟨1, none, some 0, ⟨1, 11⟩, ⟨1, 23⟩⟩
          [.leaf ⟨2, some 1, none, ⟨1, 12⟩, ⟨1, 22⟩⟩ (.property "color" (some "red"))])] := by
    rw [items_tokenize (by rw [hcharacters]), hcharacters]
    decide +kernel
  obtain ⟨b, hb, -, -, hrestricts, -⟩ :=
    (restrictingAtRule_of_check (ofString "@font-face{color:red;}") .builtIn).2 _ _ _ _
      (by rw [steps, hitems]; exact .tail _ (.tail _ (.head _)))
  exact ⟨b, hb, (hrestricts _).1 (by decide +kernel)⟩

/-- An at-rule that ends in a semicolon restricts a block that it did not open: no at-rule here has
a block, and the general vocabulary has the property. -/
theorem restricted_by_statement :
    let source := ofString "@font-face;{color:red;}"
    (∀ t ∈ source.tokens, t.isBlockRule = false) ∧ Knowledge.builtIn.hasProperty "color" = true ∧
    (source.findings .builtIn).items =
      [.spanning (.unknownDescriptor "color" "font-face") ⟨1, 13⟩ ⟨1, 23⟩] := by
  intro source
  have hcharacters : source.characters = { items := "@font-face;{color:red;}".toList } := by
    rw [characters_ofString]
    decide +kernel
  have hitems : source.tokenize.items =
      [.token (.leaf ⟨0, none, none, ⟨1, 1⟩, ⟨1, 12⟩⟩ (.atRule "font-face" none false)),
        .token (.block ⟨1, none, some 0, ⟨1, 12⟩, ⟨1, 24⟩⟩
          [.leaf ⟨2, some 1, none, ⟨1, 13⟩, ⟨1, 23⟩⟩ (.property "color" (some "red"))])] := by
    rw [items_tokenize (by rw [hcharacters]), hcharacters]
    decide +kernel
  refine ⟨?_, by decide +kernel, ?_⟩
  · rw [tokens, hitems]
    decide
  · rw [items_findings, steps, hitems]
    decide +kernel

end Source

end Stylesheet
