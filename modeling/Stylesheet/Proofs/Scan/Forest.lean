import Stylesheet.Proofs.Scan.Coherence
import Stylesheet.Proofs.Tree

set_option autoImplicit false

/-! # The forest that grows while scanning

While a text is scanned its tokens are spread over the outermost sequence and the children of the
open blocks. `Forest` says that these sequences are well formed as far as they go: each open block
stands after everything in the sequences around it, and the numbers grow from the outermost sequence
to the innermost. A finished token joins the innermost sequence (`Forest.accept`), and a block that
is closed is a token finished in the sequence around it (`Forest.pop`). `Grown` adds what makes the
next token fit: all of this lies before the pending text and has smaller numbers than what is
open. -/

namespace Stylesheet.Scan

/-! ## Open sequences -/

/-- All open blocks begin before `p`, and all tokens finished so far end by then. -/
def Precedes (items : List Item) (blocks : List OpenBlock) (p : Position) : Prop :=
  (∀ t ∈ tokensOf items, t.stop ≤ p) ∧
    ∀ b ∈ blocks, b.start < p ∧ ∀ t ∈ b.children, t.stop ≤ p

/-- The outermost sequence and the children of the open blocks, innermost first, are well formed as
far as they go. -/
def Nested (items : List Item) : (blocks : List OpenBlock) → Prop
  | [] => Siblings none (tokensOf items) ∧ ∀ t ∈ tokensOf items, t.Sound ∧ t.type ≠ .property
  | b :: blocks => Nested items blocks ∧ Precedes items blocks b.start ∧
      Siblings (some b.id) b.children ∧ ∀ t ∈ b.children, t.Sound ∧ b.start < t.start

/-- The numbers given to finished tokens and open blocks, in source order. -/
def numbers (items : List Item) : (blocks : List OpenBlock) → List TokenId
  | [] => (tokensOf items).flatMap Token.ids
  | b :: blocks => numbers items blocks ++ b.id :: b.children.flatMap Token.ids

/-- What has been finished and what is still open form a forest. -/
structure Forest (items : List Item) (s : State) : Prop where
  nested : Nested items s.blocks
  last : s.lastTopLevel = (tokensOf items).getLast?.map Token.id
  increasing : (numbers items s.blocks).Pairwise (· < ·)

section Lists

variable {items items' : List Item} {blocks : List OpenBlock}

/-- Only the tokens among the items matter. -/
theorem precedes_congr (h : tokensOf items' = tokensOf items) {p : Position} :
    Precedes items' blocks p ↔ Precedes items blocks p := by
  simp [Precedes, h]

theorem nested_congr (h : tokensOf items' = tokensOf items) :
    Nested items' blocks ↔ Nested items blocks := by
  induction blocks with
  | nil => simp [Nested, h]
  | cons b blocks ih => simp [Nested, ih, precedes_congr h]

theorem numbers_congr (h : tokensOf items' = tokensOf items) :
    numbers items' blocks = numbers items blocks := by
  induction blocks with
  | nil => simp [numbers, h]
  | cons b blocks ih => simp [numbers, ih]

theorem Precedes.mono {p q : Position} (h : Precedes items blocks p) (hle : p ≤ q) :
    Precedes items blocks q :=
  ⟨fun t ht => le_trans (h.1 t ht) hle, fun b hb =>
    ⟨lt_of_lt_of_le (h.2 b hb).1 hle, fun t ht => le_trans ((h.2 b hb).2 t ht) hle⟩⟩

/-- The outermost sequence is well formed, whatever is open inside it. -/
theorem Nested.outermost (h : Nested items blocks) : Nested items [] := by
  induction blocks with
  | nil => exact h
  | cons b blocks ih => exact ih h.1

theorem numbers_outermost (items : List Item) (blocks : List OpenBlock) :
    ((tokensOf items).flatMap Token.ids).Sublist (numbers items blocks) := by
  induction blocks with
  | nil => exact List.Sublist.refl _
  | cons b blocks ih => exact ih.trans (List.sublist_append_left _ _)

end Lists

namespace Forest

variable {items items' : List Item} {s s' : State}

theorem congr (h : Forest items s) (hitems : tokensOf items' = tokensOf items)
    (hblocks : s'.blocks = s.blocks) (hlast : s'.lastTopLevel = s.lastTopLevel) :
    Forest items' s' where
  nested := by
    rw [hblocks]
    exact (nested_congr hitems).2 h.nested
  last := by rw [hlast, hitems, h.last]
  increasing := by
    rw [hblocks, numbers_congr hitems]
    exact h.increasing

/-- The tokens of a forest are those of a well-formed run, whatever is still open. -/
theorem wellFormed (h : Forest items s) : WellFormed (tokensOf items) := by
  obtain ⟨hsiblings, hall⟩ := h.nested.outermost
  exact wellFormed_of_sound hsiblings (fun t ht => (hall t ht).1)
    (h.increasing.sublist (numbers_outermost items s.blocks)) (fun t ht => (hall t ht).2)

/-! ## Finished tokens -/

theorem tokensOf_accept_of_cons (items : List Item) {b : OpenBlock} {blocks : List OpenBlock}
    (t : Token) (hblocks : s.blocks = b :: blocks) :
    tokensOf (items ++ (s.accept t).1) = tokensOf items ∧
      (s.accept t).2.blocks = b.add t :: blocks ∧
      (s.accept t).2.lastTopLevel = s.lastTopLevel := by
  simp [State.accept, hblocks]

theorem tokensOf_accept_of_nil (items : List Item) (t : Token) (hblocks : s.blocks = []) :
    tokensOf (items ++ (s.accept t).1) = tokensOf items ++ [t.linkedAfter s.lastTopLevel] ∧
      (s.accept t).2.blocks = [] ∧ (s.accept t).2.lastTopLevel = some t.id := by
  simp [State.accept, State.acceptTopLevel, hblocks]

/-- An accepted token takes the next numbers. -/
theorem numbers_accept (items : List Item) (s : State) (t : Token) :
    numbers (items ++ (s.accept t).1) (s.accept t).2.blocks =
      numbers items s.blocks ++ t.ids := by
  cases hblocks : s.blocks with
  | nil =>
    obtain ⟨htokens, hnil, -⟩ := tokensOf_accept_of_nil items t hblocks
    rw [hnil, numbers, htokens]
    simp [numbers]
  | cons b blocks =>
    obtain ⟨htokens, hcons, -⟩ := tokensOf_accept_of_cons items t hblocks
    rw [hcons, numbers_congr htokens, numbers, OpenBlock.children_add]
    simp [numbers, OpenBlock.add]

theorem precedes_accept {t : Token} {p : Position} (h : Precedes items s.blocks p)
    (ht : t.stop ≤ p) : Precedes (items ++ (s.accept t).1) (s.accept t).2.blocks p := by
  cases hblocks : s.blocks with
  | nil =>
    obtain ⟨htokens, hnil, -⟩ := tokensOf_accept_of_nil items t hblocks
    rw [hnil, Precedes, htokens]
    refine ⟨?_, by simp⟩
    intro u hu
    rcases List.mem_append.1 hu with hu | hu
    · exact h.1 u hu
    · rw [List.mem_singleton.1 hu, Token.stop_linkedAfter]
      exact ht
  | cons b blocks =>
    obtain ⟨htokens, hcons, -⟩ := tokensOf_accept_of_cons items t hblocks
    rw [hcons, precedes_congr htokens]
    rw [hblocks] at h
    refine ⟨h.1, ?_⟩
    intro b' hb'
    rcases List.mem_cons.1 hb' with rfl | hb'
    · obtain ⟨hstart, hchildren⟩ := h.2 b (List.mem_cons_self ..)
      refine ⟨hstart, ?_⟩
      intro u hu
      rw [OpenBlock.children_add] at hu
      rcases List.mem_append.1 hu with hu | hu
      · exact hchildren u hu
      · rw [List.mem_singleton.1 hu, Token.stop_childOf]
        exact ht
    · exact h.2 b' (List.mem_cons_of_mem _ hb')

/-- A sound token after all that is finished and open, with larger numbers, joins the forest. -/
theorem accept (h : Forest items s) {t : Token} (hsound : t.Sound) (hparent : t.parent = none)
    (hbefore : Precedes items s.blocks t.start)
    (hincreasing : (numbers items s.blocks ++ t.ids).Pairwise (· < ·))
    (htype : t.type = .property → s.blocks ≠ []) :
    Forest (items ++ (s.accept t).1) (s.accept t).2 := by
  have hnested := h.nested
  rw [← numbers_accept] at hincreasing
  cases hblocks : s.blocks with
  | nil =>
    obtain ⟨htokens, hnil, hlast⟩ := tokensOf_accept_of_nil items t hblocks
    rw [hblocks] at hnested hbefore
    refine ⟨?_, by rw [hlast, htokens]; simp, hincreasing⟩
    rw [hnil, Nested, htokens]
    refine ⟨hnested.1.concat ?_ ?_ ?_, ?_⟩
    · intro u hu
      rw [Token.start_linkedAfter]
      exact hbefore.1 u hu
    · rw [Token.parent_linkedAfter, hparent]
    · rw [Token.previous_linkedAfter, h.last]
    · intro u hu
      rcases List.mem_append.1 hu with hu | hu
      · exact hnested.2 u hu
      · rw [List.mem_singleton.1 hu, Token.type_linkedAfter]
        exact ⟨hsound.linkedAfter _, fun hproperty => htype hproperty hblocks⟩
  | cons b blocks =>
    obtain ⟨htokens, hcons, hlast⟩ := tokensOf_accept_of_cons items t hblocks
    rw [hblocks] at hnested hbefore
    obtain ⟨houter, hfront, hsiblings, hchildren⟩ := hnested
    obtain ⟨hstart, hstop⟩ := hbefore.2 b (List.mem_cons_self ..)
    refine ⟨?_, by rw [hlast, htokens, h.last], hincreasing⟩
    rw [hcons, nested_congr htokens, Nested, OpenBlock.children_add]
    refine ⟨houter, hfront, hsiblings.concat ?_ (by simp) ?_, ?_⟩
    · intro u hu
      rw [Token.start_childOf]
      exact hstop u hu
    · rw [Token.previous_childOf, OpenBlock.children, List.getLast?_reverse]
    · intro u hu
      rcases List.mem_append.1 hu with hu | hu
      · exact hchildren u hu
      · rw [List.mem_singleton.1 hu, Token.start_childOf]
        exact ⟨hsound.childOf _ _, hstart⟩

/-- The innermost block of a forest, closed after all its children, is a sound token after
everything around it. -/
theorem pop (h : Forest items s) {b : OpenBlock} {blocks : List OpenBlock} {stop : Position}
    (hblocks : s.blocks = b :: blocks) (hstop : Precedes items s.blocks stop) :
    Forest items { s with blocks } ∧ (b.close stop).Sound ∧
      Precedes items blocks (b.close stop).start ∧ (b.close stop).stop = stop ∧
      numbers items blocks ++ (b.close stop).ids = numbers items s.blocks := by
  have hnested := h.nested
  have hincreasing := h.increasing
  rw [hblocks] at hnested hincreasing hstop
  obtain ⟨houter, hfront, hsiblings, hchildren⟩ := hnested
  obtain ⟨hstart, hchildren'⟩ := hstop.2 b (List.mem_cons_self ..)
  have hclose : (b.close stop).stop = stop := by
    rw [OpenBlock.close, Token.stop_ofChildren, Position.widen_of_lt hstart]
  refine ⟨⟨houter, h.last, ?_⟩, Token.sound_iff.2 ⟨⟨?_, hsiblings, ?_⟩, ?_⟩, hfront, hclose, ?_⟩
  · exact (List.pairwise_append.1 hincreasing).1
  · rw [hclose]
    exact hstart
  · intro u hu
    rw [hclose]
    exact ⟨(hchildren u hu).2, hchildren' u hu⟩
  · exact fun u hu => (hchildren u hu).1
  · rw [hblocks, numbers, Token.ids_eq_cons]
    rfl

/-- Closing the innermost block. -/
theorem closeBlock (h : Forest items s) {b : OpenBlock} {blocks : List OpenBlock}
    {stop : Position} (hblocks : s.blocks = b :: blocks)
    (hstop : Precedes items s.blocks stop) :
    Forest (items ++ ({ s with blocks }.accept (b.close stop)).1)
      ({ s with blocks }.accept (b.close stop)).2 ∧
    Precedes (items ++ ({ s with blocks }.accept (b.close stop)).1)
      ({ s with blocks }.accept (b.close stop)).2.blocks stop ∧
    numbers (items ++ ({ s with blocks }.accept (b.close stop)).1)
      ({ s with blocks }.accept (b.close stop)).2.blocks = numbers items s.blocks := by
  obtain ⟨hpop, hsound, hbefore, hclose, hnumbers⟩ := h.pop hblocks hstop
  refine ⟨hpop.accept hsound rfl hbefore ?_ ?_, precedes_accept ?_ ?_, ?_⟩
  · rw [hnumbers]
    exact h.increasing
  · intro hproperty
    simp [OpenBlock.close] at hproperty
  · rw [hblocks] at hstop
    exact ⟨hstop.1, fun b' hb' => hstop.2 b' (List.mem_cons_of_mem _ hb')⟩
  · rw [hclose]
  · rw [numbers_accept, hnumbers]

end Forest

/-! ## The forest and the pending text -/

/-- The numbers of the open token and the open comment. -/
def State.openIds (s : State) : List TokenId :=
  s.current.toList.map OpenToken.id ++ s.comment.toList.map OpenComment.id

theorem State.openIds_eq_nil {s : State} (hcurrent : s.current = none)
    (hcomment : s.comment = none) : s.openIds = [] := by
  simp [openIds, hcurrent, hcomment]

/-- The forest lies before the pending text, and what is open has larger numbers. -/
structure Grown (items : List Item) (s : State) : Prop extends Forest items s where
  next : Precedes items s.blocks s.next
  cells : ∀ cell ∈ s.window.cells, Precedes items s.blocks cell.position
  fresh : ∀ id ∈ numbers items s.blocks, id < s.nextId
  opened : ∀ x ∈ s.openIds, x < s.nextId ∧ ∀ id ∈ numbers items s.blocks, id < x

namespace Grown

variable {items items' : List Item} {s s' : State}

/-- Text may leave the window, and things may be opened with fresh numbers. -/
theorem keep (h : Grown items s) (hitems : tokensOf items' = tokensOf items)
    (hblocks : s'.blocks = s.blocks) (hlast : s'.lastTopLevel = s.lastTopLevel)
    (hnext : s'.next = s.next) (hcells : s'.window.cells ⊆ s.window.cells)
    (hid : s.nextId ≤ s'.nextId)
    (hopened : ∀ x ∈ s'.openIds, x ∈ s.openIds ∨ s.nextId ≤ x ∧ x < s'.nextId) :
    Grown items' s' where
  toForest := h.congr hitems hblocks hlast
  next := by
    rw [hblocks, precedes_congr hitems, hnext]
    exact h.next
  cells cell hcell := by
    rw [hblocks, precedes_congr hitems]
    exact h.cells cell (hcells hcell)
  fresh id hmem := by
    rw [hblocks, numbers_congr hitems] at hmem
    exact lt_of_lt_of_le (h.fresh id hmem) hid
  opened x hx := by
    rw [hblocks, numbers_congr hitems]
    rcases hopened x hx with hold | ⟨hnew, hlt⟩
    · exact ⟨lt_of_lt_of_le (h.opened x hold).1 hid, (h.opened x hold).2⟩
    · exact ⟨hlt, fun id hmem => lt_of_lt_of_le (h.fresh id hmem) hnew⟩

/-- A block opens at a character of the window, and nothing stays pending. -/
theorem openBlock (h : Grown items s) (hitems : tokensOf items' = tokensOf items) {p : Position}
    {header : Position} (hp : ∃ cell ∈ s.window.cells, cell.position = p) (hlt : p < s.next)
    (hblocks : s'.blocks = ⟨s.nextId, p, header, []⟩ :: s.blocks)
    (hlast : s'.lastTopLevel = s.lastTopLevel) (hnext : s'.next = s.next)
    (hcells : s'.window.cells = []) (hid : s'.nextId = s.nextId + 1)
    (hopened : s'.openIds = []) : Grown items' s' := by
  obtain ⟨cell, hcell, rfl⟩ := hp
  have hnumbers : numbers items' s'.blocks = numbers items s.blocks ++ [s.nextId] := by
    rw [hblocks, numbers_congr hitems]
    rfl
  refine ⟨⟨?_, by rw [hlast, hitems, h.last], ?_⟩, ?_, by simp [hcells], ?_, by simp [hopened]⟩
  · rw [hblocks, nested_congr hitems]
    exact ⟨h.nested, h.cells cell hcell, siblings_nil _, by simp [OpenBlock.children]⟩
  · rw [hnumbers, List.pairwise_append]
    refine ⟨h.increasing, List.pairwise_singleton _ _, ?_⟩
    intro id hmem new hnew
    rw [List.mem_singleton.1 hnew]
    exact h.fresh id hmem
  · rw [hblocks, hnext, precedes_congr hitems]
    refine ⟨h.next.1, ?_⟩
    intro b hb
    rcases List.mem_cons.1 hb with rfl | hb
    · exact ⟨hlt, by simp [OpenBlock.children]⟩
    · exact h.next.2 b hb
  · intro id hmem
    rw [hid]
    rw [hnumbers] at hmem
    rcases List.mem_append.1 hmem with hmem | hmem
    · exact Nat.lt_succ_of_lt (h.fresh id hmem)
    · rw [List.mem_singleton.1 hmem]
      exact Nat.lt_succ_self _

/-- A token without children that begins at a character of the window is finished. Its number is
that of something open, or fresh. -/
theorem accept (h : Grown items s) {id : TokenId} {content : Leaf} {start stop : Position}
    (s₀ : State) (hstart : ∃ cell ∈ s.window.cells, cell.position = start) (hlt : start < stop)
    (hstop : stop ≤ s.next) (hproperty : content.type = .property → s.blocks ≠ [])
    (hnumber : (id ∈ s.openIds ∨ s.nextId ≤ id) ∧ id < s'.nextId) (hid : s.nextId ≤ s'.nextId)
    (hblocks₀ : s₀.blocks = s.blocks) (hlast₀ : s₀.lastTopLevel = s.lastTopLevel)
    (hitems : tokensOf items' =
      tokensOf (items ++ (s₀.accept (.ofLeaf id content start stop)).1))
    (hblocks : s'.blocks = (s₀.accept (.ofLeaf id content start stop)).2.blocks)
    (hlast : s'.lastTopLevel = (s₀.accept (.ofLeaf id content start stop)).2.lastTopLevel)
    (hnext : s'.next = s.next)
    (hcells : ∀ cell ∈ s'.window.cells, cell ∈ s.window.cells ∧ stop ≤ cell.position)
    (hopened : s'.openIds = []) : Grown items' s' := by
  obtain ⟨first, hfirst, hposition⟩ := hstart
  have hforest : Forest items s₀ := h.congr rfl hblocks₀ hlast₀
  have hbefore : Precedes items s.blocks start := by
    rw [← hposition]
    exact h.cells first hfirst
  have hwiden : (Token.ofLeaf id content start stop).stop = stop := by
    rw [Token.stop_ofLeaf, Position.widen_of_lt hlt]
  have hlarger : ∀ old ∈ numbers items s.blocks, old < id := by
    intro old hold
    rcases hnumber.1 with hopen | hnew
    · exact (h.opened id hopen).2 old hold
    · exact lt_of_lt_of_le (h.fresh old hold) hnew
  have hnumbers : numbers items' s'.blocks = numbers items s.blocks ++ [id] := by
    rw [hblocks, numbers_congr hitems, Forest.numbers_accept, hblocks₀, Token.ids_ofLeaf]
  -- what bounds the forest and the new token bounds the forest with it
  have hprecedes {p : Position} (hp : Precedes items s.blocks p) (hle : stop ≤ p) :
      Precedes items' s'.blocks p := by
    rw [hblocks, precedes_congr hitems]
    exact Forest.precedes_accept (by rw [hblocks₀]; exact hp) (by rw [hwiden]; exact hle)
  have hincreasing : (numbers items s₀.blocks ++
      (Token.ofLeaf id content start stop).ids).Pairwise (· < ·) := by
    rw [hblocks₀, Token.ids_ofLeaf, List.pairwise_append]
    refine ⟨h.increasing, List.pairwise_singleton _ _, ?_⟩
    intro old hold new hnew
    rw [List.mem_singleton.1 hnew]
    exact hlarger old hold
  have haccept := hforest.accept (Token.sound_ofLeaf id content start stop) rfl
    (by rw [hblocks₀]; exact hbefore) hincreasing (by rw [hblocks₀]; exact hproperty)
  refine ⟨haccept.congr hitems hblocks hlast, ?_, ?_, ?_, by simp [hopened]⟩
  · rw [hnext]
    exact hprecedes h.next hstop
  · intro cell hcell
    exact hprecedes (h.cells cell (hcells cell hcell).1) (hcells cell hcell).2
  · intro old hold
    rw [hnumbers] at hold
    rcases List.mem_append.1 hold with hold | hold
    · exact lt_of_lt_of_le (h.fresh old hold) hid
    · rw [List.mem_singleton.1 hold]
      exact hnumber.2

/-- The innermost block is closed before the next character, and nothing stays pending. -/
theorem closeBlock (h : Grown items s) {b : OpenBlock} {blocks : List OpenBlock} (s₀ : State)
    (hb : s.blocks = b :: blocks) (hblocks₀ : s₀.blocks = blocks)
    (hlast₀ : s₀.lastTopLevel = s.lastTopLevel)
    (hitems : tokensOf items' = tokensOf (items ++ (s₀.accept (b.close s.next)).1))
    (hblocks : s'.blocks = (s₀.accept (b.close s.next)).2.blocks)
    (hlast : s'.lastTopLevel = (s₀.accept (b.close s.next)).2.lastTopLevel)
    (hnext : s'.next = s.next) (hcells : s'.window.cells = []) (hid : s'.nextId = s.nextId)
    (hopened : s'.openIds = []) : Grown items' s' := by
  have hself : ({ s₀ with blocks := b :: blocks } : State).blocks = b :: blocks := rfl
  have hforest : Forest items { s₀ with blocks := b :: blocks } := h.congr rfl hb.symm hlast₀
  have hstop : Precedes items (b :: blocks) s.next := by
    rw [← hb]
    exact h.next
  obtain ⟨hclosed, hprecedes, hnumbers⟩ := hforest.closeBlock hself hstop
  have hs₀ : ({ s₀ with blocks := blocks } : State) = s₀ := by rw [← hblocks₀]
  simp only [hs₀] at hclosed hprecedes hnumbers
  refine ⟨hclosed.congr hitems hblocks hlast, ?_, by simp [hcells], ?_, by simp [hopened]⟩
  · rw [hblocks, precedes_congr hitems, hnext]
    exact hprecedes
  · intro id hmem
    rw [hblocks, numbers_congr hitems, hnumbers, ← hb] at hmem
    rw [hid]
    exact h.fresh id hmem

/-- The next character joins the window. -/
theorem arrive (h : Grown items s) (c : Char) : Grown items (s.arrive c) where
  toForest := h.congr rfl rfl rfl
  next := h.next.mono (le_of_lt (s.next.lt_advance c))
  cells cell hcell := by
    simp only [State.arrive, Window.cells_push, List.mem_append, List.mem_singleton] at hcell
    rcases hcell with hcell | rfl
    · exact h.cells cell hcell
    · exact h.next
  fresh := h.fresh
  opened := h.opened

end Grown

end Stylesheet.Scan
