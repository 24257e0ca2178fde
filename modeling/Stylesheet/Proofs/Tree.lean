import Mathlib.Data.List.Chain
import Stylesheet.Proofs.Position
import Stylesheet.Proofs.Token

set_option autoImplicit false

/-! # Well-formed token trees

The tokens of a block, and those outside all blocks, form a sequence: they follow each other in the
source and are linked to each other and to the block that owns them (`Siblings`). A token is *well
placed* when its span is not empty and its children are such a sequence inside the span, and a whole
run is `WellFormed` when all its tokens are, when their numbers grow in source order, and when every
declaration stands in a block. -/

namespace Stylesheet

/-- The tokens are one whole sequence, that of the block `parent` or the outermost one. -/
structure Siblings (parent : Option TokenId) (ts : List Token) : Prop where
  ordered : ts.Pairwise fun a b => a.stop ≤ b.start
  parent_eq : ∀ t ∈ ts, t.parent = parent
  first : ∀ t, ts.head? = some t → t.previous = none
  linked : ts.IsChain fun a b => b.previous = some a.id

theorem siblings_nil (parent : Option TokenId) : Siblings parent [] where
  ordered := List.Pairwise.nil
  parent_eq := by simp
  first := by simp
  linked := List.IsChain.nil

/-- A token that is linked to the last of a sequence and stands after all of it continues the
sequence. -/
theorem Siblings.concat {parent : Option TokenId} {ts : List Token} (h : Siblings parent ts)
    {t : Token} (hafter : ∀ u ∈ ts, u.stop ≤ t.start) (hparent : t.parent = parent)
    (hprevious : t.previous = ts.getLast?.map Token.id) : Siblings parent (ts ++ [t]) where
  ordered := by
    rw [List.pairwise_append]
    refine ⟨h.ordered, List.pairwise_singleton _ _, ?_⟩
    intro u hu v hv
    rw [List.mem_singleton.1 hv]
    exact hafter u hu
  parent_eq u hu := by
    rcases List.mem_append.1 hu with hu | hu
    · exact h.parent_eq u hu
    · rw [List.mem_singleton.1 hu, hparent]
  first u hu := by
    cases ts with
    | nil =>
      simp only [List.nil_append, List.head?_cons, Option.some.injEq] at hu
      rw [← hu, hprevious]
      rfl
    | cons first rest => exact h.first u (by simpa using hu)
  linked := by
    rw [List.isChain_append]
    refine ⟨h.linked, List.IsChain.singleton _, ?_⟩
    intro last hlast u hu
    simp only [List.head?_cons, Option.mem_def, Option.some.injEq] at hu
    rw [← hu, hprevious, Option.mem_def.1 hlast]
    rfl

/-- Every token of a sequence names the one before it. -/
theorem Siblings.previous_eq {parent : Option TokenId} {front rest : List Token} {t : Token}
    (h : Siblings parent (front ++ t :: rest)) : t.previous = front.getLast?.map Token.id := by
  rcases List.eq_nil_or_concat front with rfl | ⟨before, last, rfl⟩
  · exact h.first t rfl
  · have hlinked := (List.isChain_append.1 h.linked).2.2 last (by simp) t (by simp)
    simpa using hlinked

namespace Token

/-- The span is not empty, and the children are a sequence that lies inside it. -/
structure WellPlaced (t : Token) : Prop where
  start_lt_stop : t.start < t.stop
  siblings : Siblings (some t.id) t.children
  within : ∀ u ∈ t.children, t.start < u.start ∧ u.stop ≤ t.stop

/-- The token and everything nested in it is well placed. -/
def Sound (t : Token) : Prop := ∀ u ∈ t.preorder, u.WellPlaced

/-- The numbers of the token and of everything nested in it. -/
def ids (t : Token) : List TokenId := t.preorder.map Token.id

theorem ids_eq_cons (t : Token) : t.ids = t.id :: t.children.flatMap ids := by
  rw [ids, preorder_eq_cons, List.map_cons, List.map_flatMap]
  rfl

theorem sound_iff {t : Token} : t.Sound ↔ t.WellPlaced ∧ ∀ u ∈ t.children, u.Sound := by
  constructor
  · intro h
    refine ⟨h t t.mem_preorder_self, ?_⟩
    intro u hu v hv
    apply h v
    rw [preorder_eq_cons]
    exact List.mem_cons_of_mem _ (List.mem_flatMap.2 ⟨u, hu, hv⟩)
  · rintro ⟨hself, hchildren⟩ v hv
    rw [preorder_eq_cons] at hv
    rcases List.mem_cons.1 hv with rfl | hv
    · exact hself
    · obtain ⟨u, hu, hv⟩ := List.mem_flatMap.1 hv
      exact hchildren u hu v hv

/-- Links do not matter for the placement of a token. -/
theorem WellPlaced.congr {t u : Token} (h : t.WellPlaced) (hid : u.id = t.id)
    (hstart : u.start = t.start) (hstop : u.stop = t.stop) (hchildren : u.children = t.children) :
    u.WellPlaced where
  start_lt_stop := by
    rw [hstart, hstop]
    exact h.start_lt_stop
  siblings := by
    rw [hid, hchildren]
    exact h.siblings
  within := by
    rw [hstart, hstop, hchildren]
    exact h.within

theorem Sound.childOf {t : Token} (h : t.Sound) (parent : TokenId) (previous : Option TokenId) :
    (t.childOf parent previous).Sound := by
  obtain ⟨hself, hchildren⟩ := sound_iff.1 h
  exact sound_iff.2 ⟨hself.congr (by simp) (by simp) (by simp) (by simp), by simpa using hchildren⟩

theorem Sound.linkedAfter {t : Token} (h : t.Sound) (previous : Option TokenId) :
    (t.linkedAfter previous).Sound := by
  obtain ⟨hself, hchildren⟩ := sound_iff.1 h
  exact sound_iff.2 ⟨hself.congr (by simp) (by simp) (by simp) (by simp), by simpa using hchildren⟩

@[simp] theorem ids_childOf (t : Token) (parent : TokenId) (previous : Option TokenId) :
    (t.childOf parent previous).ids = t.ids := by
  simp [ids_eq_cons]

@[simp] theorem ids_linkedAfter (t : Token) (previous : Option TokenId) :
    (t.linkedAfter previous).ids = t.ids := by
  simp [ids_eq_cons]

@[simp] theorem ids_ofLeaf (id : TokenId) (content : Leaf) (start stop : Position) :
    (ofLeaf id content start stop).ids = [id] := by
  simp [ids_eq_cons]

/-- A token with a span of its own and no children is well placed. -/
theorem sound_ofLeaf (id : TokenId) (content : Leaf) (start stop : Position) :
    (ofLeaf id content start stop).Sound := by
  refine sound_iff.2 ⟨⟨?_, ?_, by simp⟩, by simp⟩
  · simpa using Position.lt_widen start stop
  · simpa using siblings_nil (some id)

/-- A token nested in another is a child of some token of the tree. -/
theorem eq_or_mem_children (t u : Token) (hu : u ∈ t.preorder) :
    u = t ∨ ∃ b ∈ t.preorder, u ∈ b.children := by
  rw [preorder_eq_cons] at hu
  rcases List.mem_cons.1 hu with rfl | hu
  · exact Or.inl rfl
  · obtain ⟨child, hchild, hu⟩ := List.mem_flatMap.1 hu
    refine Or.inr ?_
    rcases eq_or_mem_children child u hu with rfl | ⟨b, hb, hmem⟩
    · exact ⟨t, t.mem_preorder_self, hchild⟩
    · refine ⟨b, ?_, hmem⟩
      rw [preorder_eq_cons]
      exact List.mem_cons_of_mem _ (List.mem_flatMap.2 ⟨child, hchild, hb⟩)
termination_by sizeOf t
decreasing_by
  cases t with
  | leaf place content => simp [children] at hchild
  | block place ts =>
    have := List.sizeOf_lt_of_mem hchild
    simp only [children] at this
    simp only [block.sizeOf_spec]
    omega

theorem type_of_mem_children {t u : Token} (h : u ∈ t.children) : t.type = .block := by
  cases t with
  | leaf place content => simp [children] at h
  | block place ts => rfl

end Token

/-- The tokens of a run: a forest of well-placed tokens, numbered in source order, in which every
declaration stands in a block. -/
structure WellFormed (ts : List Token) : Prop where
  siblings : Siblings none ts
  placed : ∀ t ∈ ts.flatMap Token.preorder, t.WellPlaced
  increasing : ((ts.flatMap Token.preorder).map Token.id).Pairwise (· < ·)
  inBlock : ∀ t ∈ ts.flatMap Token.preorder, t.type = .property →
    ∃ b ∈ ts.flatMap Token.preorder, b.type = .block ∧ t ∈ b.children ∧ t.parent = some b.id

theorem WellFormed.sound {ts : List Token} (h : WellFormed ts) {t : Token} (ht : t ∈ ts) :
    t.Sound :=
  fun u hu => h.placed u (List.mem_flatMap.2 ⟨t, ht, hu⟩)

/-- It is enough that the outermost tokens are sound and no declarations. -/
theorem wellFormed_of_sound {ts : List Token} (hsiblings : Siblings none ts)
    (hsound : ∀ t ∈ ts, t.Sound) (hincreasing : (ts.flatMap Token.ids).Pairwise (· < ·))
    (hproperty : ∀ t ∈ ts, t.type ≠ .property) : WellFormed ts := by
  have hplaced : ∀ t ∈ ts.flatMap Token.preorder, t.WellPlaced := by
    intro t ht
    obtain ⟨u, hu, ht⟩ := List.mem_flatMap.1 ht
    exact hsound u hu t ht
  refine ⟨hsiblings, hplaced, ?_, ?_⟩
  · rw [List.map_flatMap]
    exact hincreasing
  · intro t ht htype
    obtain ⟨u, hu, ht⟩ := List.mem_flatMap.1 ht
    rcases u.eq_or_mem_children t ht with rfl | ⟨b, hb, hmem⟩
    · exact absurd htype (hproperty t hu)
    · have hb' : b ∈ ts.flatMap Token.preorder := List.mem_flatMap.2 ⟨u, hu, hb⟩
      exact ⟨b, hb', Token.type_of_mem_children hmem, hmem,
        (hplaced b hb').siblings.parent_eq t hmem⟩

end Stylesheet
