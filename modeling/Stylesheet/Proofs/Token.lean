import Stylesheet.Finding
import Stylesheet.Scan.State

set_option autoImplicit false

/-! # Token trees

`Token.preorder` lists a token and everything nested in it, a block before its children. It is how
statements about all tokens of a run, at any depth, are phrased. Linking a token to its neighbours
changes its placement only. -/

namespace Stylesheet

namespace Token

mutual

/-- The token and all tokens nested in it, in source order and a block before its children. -/
def preorder : Token → List Token
  | leaf place content => [leaf place content]
  | block place children => block place children :: preorderAll children

/-- The tokens of a sequence and all tokens nested in them. -/
def preorderAll : List Token → List Token
  | [] => []
  | t :: ts => t.preorder ++ preorderAll ts

end

theorem preorderAll_eq_flatMap (ts : List Token) : preorderAll ts = ts.flatMap preorder := by
  induction ts with
  | nil => rfl
  | cons t ts ih => simp [preorderAll, ih]

theorem preorder_eq_cons (t : Token) : t.preorder = t :: t.children.flatMap preorder := by
  cases t with
  | leaf place content => rfl
  | block place ts => simp [preorder, children, preorderAll_eq_flatMap]

theorem mem_preorder_self (t : Token) : t ∈ t.preorder := by
  rw [preorder_eq_cons]
  exact List.mem_cons_self ..

mutual

/-- What is nested in a token holds its children too. -/
theorem mem_preorder_of_mem_children (t : Token) {b u : Token} (hb : b ∈ t.preorder)
    (hu : u ∈ b.children) : u ∈ t.preorder := by
  cases t with
  | leaf place content =>
    rw [List.mem_singleton.1 hb] at hu
    simp [children] at hu
  | block place ts =>
    rcases List.mem_cons.1 hb with rfl | hb
    · rw [preorder_eq_cons]
      exact List.mem_cons_of_mem _ (List.mem_flatMap.2 ⟨u, hu, u.mem_preorder_self⟩)
    · exact List.mem_cons_of_mem _ (mem_preorderAll_of_mem_children ts hb hu)

theorem mem_preorderAll_of_mem_children (ts : List Token) {b u : Token} (hb : b ∈ preorderAll ts)
    (hu : u ∈ b.children) : u ∈ preorderAll ts := by
  cases ts with
  | nil => simp [preorderAll] at hb
  | cons t ts =>
    rcases List.mem_append.1 hb with hb | hb
    · exact List.mem_append_left _ (mem_preorder_of_mem_children t hb hu)
    · exact List.mem_append_right _ (mem_preorderAll_of_mem_children ts hb hu)

end

/-! ## Linking -/

section Links

variable (t : Token) (parent : TokenId) (previous : Option TokenId)

@[simp] theorem id_childOf : (t.childOf parent previous).id = t.id := by
  simp [childOf, id]

@[simp] theorem start_childOf : (t.childOf parent previous).start = t.start := by
  simp [childOf, start]

@[simp] theorem stop_childOf : (t.childOf parent previous).stop = t.stop := by
  simp [childOf, stop]

@[simp] theorem type_childOf : (t.childOf parent previous).type = t.type := by
  simp [childOf]

@[simp] theorem children_childOf : (t.childOf parent previous).children = t.children := by
  simp [childOf]

@[simp] theorem parent_childOf : (t.childOf parent previous).parent = some parent := by
  simp [childOf, Token.parent]

@[simp] theorem previous_childOf : (t.childOf parent previous).previous = previous := by
  simp [childOf, Token.previous]

@[simp] theorem id_linkedAfter : (t.linkedAfter previous).id = t.id := by
  simp [linkedAfter, id]

@[simp] theorem start_linkedAfter : (t.linkedAfter previous).start = t.start := by
  simp [linkedAfter, start]

@[simp] theorem stop_linkedAfter : (t.linkedAfter previous).stop = t.stop := by
  simp [linkedAfter, stop]

@[simp] theorem type_linkedAfter : (t.linkedAfter previous).type = t.type := by
  simp [linkedAfter]

@[simp] theorem children_linkedAfter : (t.linkedAfter previous).children = t.children := by
  simp [linkedAfter]

@[simp] theorem parent_linkedAfter : (t.linkedAfter previous).parent = t.parent := by
  simp [linkedAfter, Token.parent]

@[simp] theorem previous_linkedAfter : (t.linkedAfter previous).previous = previous := by
  simp [linkedAfter, Token.previous]

end Links

/-! ## Building -/

section Build

variable (id : TokenId) (content : Leaf) (children : List Token) (start stop : Position)

@[simp] theorem start_ofLeaf : (ofLeaf id content start stop).start = start := rfl

@[simp] theorem stop_ofLeaf : (ofLeaf id content start stop).stop = start.widen stop := rfl

@[simp] theorem type_ofLeaf : (ofLeaf id content start stop).type = content.type := rfl

@[simp] theorem children_ofLeaf : (ofLeaf id content start stop).children = [] := rfl

@[simp] theorem id_ofLeaf : (ofLeaf id content start stop).id = id := rfl

@[simp] theorem parent_ofLeaf : (ofLeaf id content start stop).parent = none := rfl

@[simp] theorem id_ofChildren : (ofChildren id children start stop).id = id := rfl

@[simp] theorem start_ofChildren : (ofChildren id children start stop).start = start := rfl

@[simp] theorem stop_ofChildren : (ofChildren id children start stop).stop = start.widen stop := rfl

@[simp] theorem type_ofChildren : (ofChildren id children start stop).type = .block := rfl

@[simp] theorem children_ofChildren :
    (ofChildren id children start stop).children = children := rfl

@[simp] theorem parent_ofChildren : (ofChildren id children start stop).parent = none := rfl

end Build

end Token

namespace Item

/-- The token of an item that is one. -/
def token? : Item → Option Token
  | token t => some t
  | finding _ => none

/-- The finding of an item that is one. -/
def finding? : Item → Option Finding
  | token _ => none
  | finding f => some f

end Item

/-- The outermost tokens among the items. -/
def tokensOf (items : List Item) : List Token := items.filterMap Item.token?

@[simp] theorem tokensOf_nil : tokensOf [] = [] := rfl

@[simp] theorem tokensOf_cons_token (t : Token) (items : List Item) :
    tokensOf (.token t :: items) = t :: tokensOf items := rfl

@[simp] theorem tokensOf_cons_finding (f : Finding) (items : List Item) :
    tokensOf (.finding f :: items) = tokensOf items := rfl

@[simp] theorem tokensOf_append (as bs : List Item) :
    tokensOf (as ++ bs) = tokensOf as ++ tokensOf bs := by
  simp [tokensOf]

/-- The findings among the items. -/
def findingsOf (items : List Item) : List Finding := items.filterMap Item.finding?

@[simp] theorem findingsOf_nil : findingsOf [] = [] := rfl

@[simp] theorem findingsOf_cons_token (t : Token) (items : List Item) :
    findingsOf (.token t :: items) = findingsOf items := rfl

@[simp] theorem findingsOf_cons_finding (f : Finding) (items : List Item) :
    findingsOf (.finding f :: items) = f :: findingsOf items := rfl

@[simp] theorem findingsOf_append (as bs : List Item) :
    findingsOf (as ++ bs) = findingsOf as ++ findingsOf bs := by
  simp [findingsOf]

end Stylesheet
