import Stylesheet.Proofs.Nesting

set_option autoImplicit false

/-! # One text after another

When nothing is pending and nothing open at the end of a text, what follows it is scanned as if it
stood alone. Only its positions and numbers are counted from where the first text ends, and its
first token is linked to the last one before it (`Source.tokenize_append`). What the run remembers
of the first text is of no consequence: not the token that was finished last, and that the source
has begun only for blanks that are no line break. -/

namespace Stylesheet

/-! ## Positions and numbers counted from elsewhere -/

/-- The placement in a text that begins at `origin`, where `n` numbers have been taken. -/
def Placement.shifted (origin : Position) (n : Nat) (p : Placement) : Placement where
  id := p.id + n
  parent := p.parent.map (· + n)
  previous := p.previous.map (· + n)
  start := p.start.moved origin
  stop := p.stop.moved origin

mutual

/-- The token in a text that begins at `origin`, where `n` numbers have been taken. -/
def Token.shifted (origin : Position) (n : Nat) : Token → Token
  | .leaf p content => .leaf (p.shifted origin n) (content.relocated (·.moved origin))
  | .block p children => .block (p.shifted origin n) (Token.shiftedAll origin n children)

/-- The same for a sequence of tokens. -/
def Token.shiftedAll (origin : Position) (n : Nat) : List Token → List Token
  | [] => []
  | t :: ts => t.shifted origin n :: Token.shiftedAll origin n ts

end

def Item.shifted (origin : Position) (n : Nat) : Item → Item
  | .token t => .token (t.shifted origin n)
  | .finding f => .finding { f with start := f.start.moved origin, stop := f.stop.moved origin }

/-- The items with the first token among them linked to `previous`. -/
def linkFirst (previous : Option TokenId) : List Item → List Item
  | [] => []
  | .finding f :: items => .finding f :: linkFirst previous items
  | .token t :: items => .token (t.linkedAfter previous) :: items

/-- The same text at the start and at `origin`, where `n` numbers have been taken. -/
def Likeness.shifted (origin : Position) (n : Nat) : Likeness :=
  { Likeness.moved origin with
    id := fun k l => l = k + n
    succ := by
      rintro k l rfl
      exact Nat.add_right_comm k n 1 }

section Shifted

variable {origin : Position} {n : Nat}

theorem Token.previous_shifted (t : Token) :
    (t.shifted origin n).previous = t.previous.map (· + n) := by
  cases t <;> rfl

theorem Token.linkedAfter_previous (t : Token) : t.linkedAfter t.previous = t := by
  cases t <;> rfl

theorem Leaf.eq_relocated_of_like {a b : Leaf} (h : a.Like (.shifted origin n) b) :
    b = a.relocated (·.moved origin) := by
  cases h with
  | @selector text as bs hanchors =>
    have hmap : bs = as.map fun a => ⟨a.offset, a.position.moved origin⟩ := by
      induction hanchors with
      | nil => rfl
      | cons hab _ ih => rw [List.map_cons, ← ih, hab.1, ← hab.2.2]
    rw [Leaf.relocated, hmap]
  | refl hcontent =>
    cases a with
    | selector => simp [Leaf.type] at hcontent
    | _ => rfl

/-- Places that are alike are the same when the first is shifted, up to the links. -/
theorem Placement.eq_shifted_of_like {p q : Placement} (h : p.Like (.shifted origin n) q)
    (hparent : q.parent = p.parent.map (· + n)) :
    q = { p.shifted origin n with previous := q.previous } := by
  cases q with
  | mk id parent previous start stop =>
    obtain ⟨hid, hstart, hstop⟩ := h
    simp only at hid hstart hstop hparent
    simp only [Placement.shifted, Placement.mk.injEq, true_and]
    exact ⟨hid, hparent, hstart.2, hstop.2⟩

/-- A token is linked as the shifted one if those before them correspond. -/
theorem Token.eq_shifted_of_siblings {front front' rest rest' : List Token} {t u : Token}
    {parent parent' : Option TokenId} (h : u = (t.shifted origin n).linkedAfter u.previous)
    (hs : Siblings parent (front ++ t :: rest)) (hs' : Siblings parent' (front' ++ u :: rest'))
    (hlast : front'.getLast?.map Token.id = (front.getLast?.map Token.id).map (· + n)) :
    u = t.shifted origin n := by
  have hprevious : u.previous = (t.shifted origin n).previous := by
    rw [hs'.previous_eq, hlast, ← hs.previous_eq, Token.previous_shifted]
  rw [h, hprevious, Token.linkedAfter_previous]

mutual

/-- Tokens that are alike are the same when the first is shifted, once it is linked the same. -/
theorem Token.eq_shifted_of_like (t : Token) {u : Token} (h : t.Like (.shifted origin n) u)
    (ht : t.Sound) (hu : u.Sound) (hparent : u.parent = t.parent.map (· + n)) :
    u = (t.shifted origin n).linkedAfter u.previous := by
  cases h with
  | leaf hplace hcontent =>
    rw [Token.shifted, ← Leaf.eq_relocated_of_like hcontent]
    exact congrArg₂ Token.leaf (Placement.eq_shifted_of_like hplace hparent) rfl
  | @block p q ts us hplace hchildren =>
    obtain ⟨hplaced, hsound⟩ := Token.sound_iff.1 ht
    obtain ⟨hplaced', hsound'⟩ := Token.sound_iff.1 hu
    have hall := Token.eq_shiftedAll_of_like [] [] ts hchildren hplaced.siblings hplaced'.siblings
      (congrArg some hplace.id) rfl hsound hsound'
    rw [Token.shifted, ← hall]
    exact congrArg₂ Token.block (Placement.eq_shifted_of_like hplace hparent) rfl

/-- The same for sequences, which stand after tokens that correspond. -/
theorem Token.eq_shiftedAll_of_like (front front' ts : List Token) {us : List Token}
    {parent parent' : Option TokenId} (h : List.Forall₂ (Token.Like (.shifted origin n)) ts us)
    (hs : Siblings parent (front ++ ts)) (hs' : Siblings parent' (front' ++ us))
    (hparent : parent' = parent.map (· + n))
    (hlast : front'.getLast?.map Token.id = (front.getLast?.map Token.id).map (· + n))
    (hsound : ∀ t ∈ ts, t.Sound) (hsound' : ∀ u ∈ us, u.Sound) :
    us = Token.shiftedAll origin n ts := by
  cases h with
  | nil => rfl
  | @cons t u ts us htu hrest =>
    have hfirst := Token.eq_shifted_of_like t htu (hsound t (List.mem_cons_self ..))
      (hsound' u (List.mem_cons_self ..))
      (by rw [hs'.parent_eq u (by simp), hs.parent_eq t (by simp), hparent])
    have hsame := Token.eq_shifted_of_siblings hfirst hs hs' hlast
    have hid : u.id = t.id + n := htu.place.id
    rw [List.append_cons] at hs hs'
    have hmore := Token.eq_shiftedAll_of_like (front ++ [t]) (front' ++ [u]) ts hrest hs hs' hparent
      (by simp [hid]) (fun v hv => hsound v (List.mem_cons_of_mem _ hv))
      (fun v hv => hsound' v (List.mem_cons_of_mem _ hv))
    rw [Token.shiftedAll, ← hmore, ← hsame]

end

theorem Item.eq_shifted_of_like {f g : Finding} (h : f.Like (.shifted origin n) g) :
    Item.finding g = (Item.finding f).shifted origin n := by
  cases g with
  | mk issue start stop =>
    obtain ⟨hissue, hstart, hstop⟩ := h
    simp only at hissue hstart hstop
    simp only [Item.shifted, Item.finding.injEq, Finding.mk.injEq]
    exact ⟨hissue.symm, hstart.2, hstop.2⟩

/-- Items that are alike are the same when the first are shifted, if the tokens before them
correspond. -/
theorem Item.eq_map_shifted_of_like (front front' : List Token) {items items' : List Item}
    (h : List.Forall₂ (Item.Like (.shifted origin n)) items items')
    (hs : Siblings none (front ++ tokensOf items))
    (hs' : Siblings none (front' ++ tokensOf items'))
    (hlast : front'.getLast?.map Token.id = (front.getLast?.map Token.id).map (· + n))
    (hsound : ∀ t ∈ tokensOf items, t.Sound) (hsound' : ∀ u ∈ tokensOf items', u.Sound) :
    items' = items.map (Item.shifted origin n) := by
  induction h generalizing front front' with
  | nil => rfl
  | @cons item item' items items' hitem _ ih =>
    cases hitem with
    | finding hfg =>
      rw [List.map_cons, ← Item.eq_shifted_of_like hfg,
        ← ih front front' hs hs' hlast hsound hsound']
    | @token t u htu =>
      rw [tokensOf_cons_token] at hs hs' hsound hsound'
      have hfirst := Token.eq_shifted_of_like t htu (hsound t (List.mem_cons_self ..))
        (hsound' u (List.mem_cons_self ..))
        (by rw [hs'.parent_eq u (by simp), hs.parent_eq t (by simp)]; rfl)
      have hsame := Token.eq_shifted_of_siblings hfirst hs hs' hlast
      have hid : u.id = t.id + n := htu.place.id
      rw [List.append_cons] at hs hs'
      have hmore := ih (front ++ [t]) (front' ++ [u]) hs hs' (by simp [hid])
        (fun v hv => hsound v (List.mem_cons_of_mem _ hv))
        (fun v hv => hsound' v (List.mem_cons_of_mem _ hv))
      rw [List.map_cons, ← hmore, Item.shifted, ← hsame]

/-- After tokens that the first items know nothing about, only the first link differs. -/
theorem Item.eq_linkFirst_of_like (front' : List Token) {items items' : List Item}
    (h : List.Forall₂ (Item.Like (.shifted origin n)) items items')
    (hs : Siblings none (tokensOf items)) (hs' : Siblings none (front' ++ tokensOf items'))
    (hsound : ∀ t ∈ tokensOf items, t.Sound) (hsound' : ∀ u ∈ tokensOf items', u.Sound) :
    items' = linkFirst (front'.getLast?.map Token.id) (items.map (Item.shifted origin n)) := by
  induction h with
  | nil => rfl
  | @cons item item' items items' hitem hrest ih =>
    cases hitem with
    | finding hfg =>
      have hmore := ih hs hs' hsound hsound'
      rw [List.map_cons, ← Item.eq_shifted_of_like hfg, linkFirst, ← hmore]
    | @token t u htu =>
      rw [tokensOf_cons_token] at hs hs' hsound hsound'
      have hfirst := Token.eq_shifted_of_like t htu (hsound t (List.mem_cons_self ..))
        (hsound' u (List.mem_cons_self ..))
        (by rw [hs'.parent_eq u (by simp), hs.parent_eq t (by simp)]; rfl)
      rw [hs'.previous_eq] at hfirst
      have hid : u.id = t.id + n := htu.place.id
      rw [List.append_cons] at hs'
      have hmore := Item.eq_map_shifted_of_like [t] (front' ++ [u]) hrest hs hs' (by simp [hid])
        (fun v hv => hsound v (List.mem_cons_of_mem _ hv))
        (fun v hv => hsound' v (List.mem_cons_of_mem _ hv))
      rw [List.map_cons, Item.shifted, linkFirst, ← hmore, ← hfirst]

end Shifted

/-! ## Nothing open -/

namespace Scan

/-- Nothing is pending and nothing is open. -/
structure State.Idle (s : State) : Prop where
  cells : s.window.cells = []
  current : s.current = none
  comment : s.comment = none
  blocks : s.blocks = []

section Idle

variable {s : State} {cs ds : List Char}

theorem State.Idle.window_eq (h : s.Idle) (hs : s.window.Sound) : s.window = {} :=
  hs.eq_of_cells Window.sound_empty h.cells

/-- There is nothing to be closed at the end of the source. -/
theorem State.Idle.finish_items (h : s.Idle) : s.finish.items = [] := by
  have hrest : s.AtRest := ⟨h.comment, h.blocks, by simp [h.current], by rw [h.cells]; rfl⟩
  simp [hrest.finish_items, State.lastIndentation, h.current]

/-- The run after a text that leaves nothing open begins like one at the start. -/
theorem State.Idle.matched (h : (State.after {} cs).Idle) :
    Matched (.shifted (Position.start.advanceAll cs) (State.after {} cs).nextId) [] [] []
      (State.after {} []) (State.after {} cs) := by
  have hs := State.settled_after cs
  refine ⟨[], rfl, .nil, ⟨⟨⟨⟨by decide, by decide⟩, ?_⟩, ?_, ?_, ?_, ?_⟩, ?_⟩⟩
  · rw [hs.next]
    simp [Position.moved, Position.start]
  · rw [h.window_eq hs.window]
    exact Window.like_empty
  · rw [h.comment]
    exact .none
  · exact ⟨[], by rw [h.blocks]; rfl, .nil⟩
  · exact (Nat.zero_add _).symm
  · rw [h.current]
    exact .none

/-- A carriage return after the beginning of the source waits for what follows. -/
theorem State.Idle.scan_carriageReturn (h : s.Idle) (hs : s.window.Sound)
    (hnext : s.next ≠ .start) :
    (s.scan '\r').1.items = [] ∧ (s.scan '\r').2 = s.arrive '\r' := by
  have hblank : Text.isBlank '\r' = true := by decide
  have hfirst : firstClaim Rule.order.tail (s.arrive '\r') = (none, s.arrive '\r') := by
    simp [Rule.order, firstClaim, Rule.scan, arrive, Window.push, Window.last?, h.window_eq hs,
      h.comment, h.current, scanComment, beginComment, scanAtRule, scanSelector, scanProperty,
      scanBlock, scanWhitespace, beginWhitespace, currentType, Window.isBlank, Window.start?,
      hblank, hnext]
  rw [(State.scan_eq _ _).1, (State.scan_eq _ _).2]
  constructor <;> simp [scanPasses, hfirst]

/-- A line feed after it makes it indentation. -/
theorem State.Idle.scan_lineFeed (h : s.Idle) (hs : s.window.Sound) :
    ((s.arrive '\r').scan '\n').1.items = [] ∧
      ((s.arrive '\r').scan '\n').2 =
        ((s.arrive '\r').arrive '\n').openToken .whitespace s.next := by
  have hcells : ((s.arrive '\r').arrive '\n').window.cells =
      [⟨'\r', s.next⟩, ⟨'\n', s.next.nextColumn⟩] := by
    simp [arrive, h.cells, Position.advance]
  have hsound : ((s.arrive '\r').arrive '\n').window.Sound := (hs.push _ _).push _ _
  have hblank : ((s.arrive '\r').arrive '\n').window.isBlank = true := by
    simp only [hsound.isBlank_iff, hcells, List.mem_cons, List.not_mem_nil, or_false,
      forall_eq_or_imp, forall_eq]
    decide
  have hbreak : ((s.arrive '\r').arrive '\n').window.lineBreak = some 0 := by
    simp only [arrive, h.window_eq hs]
    rfl
  have hdrop : ((s.arrive '\r').arrive '\n').window.dropBefore 0 =
      ((s.arrive '\r').arrive '\n').window := hsound.dropBefore_zero
  have hstart : ((s.arrive '\r').arrive '\n').window.start? = some s.next := by
    simp only [arrive, h.window_eq hs]
    rfl
  have hrecent : ((s.arrive '\r').arrive '\n').window.recent =
      [⟨'\n', s.next.nextColumn⟩, ⟨'\r', s.next⟩] := by
    rw [← List.reverse_reverse (Window.recent _)]
    exact congrArg List.reverse hcells
  have hcomment : ((s.arrive '\r').arrive '\n').comment = none := h.comment
  have hcurrent : ((s.arrive '\r').arrive '\n').current = none := h.current
  have hblank' : Text.isBlank '\n' = true := by decide
  have hfirst : firstClaim Rule.order.tail ((s.arrive '\r').arrive '\n') =
      (some (.whitespace, .consumed),
        ((s.arrive '\r').arrive '\n').openToken .whitespace s.next) := by
    simp [Rule.order, firstClaim, Rule.scan, Window.last?, hrecent, hcomment, hcurrent, scanComment,
      beginComment, scanAtRule, scanSelector, scanProperty, scanBlock, scanWhitespace,
      beginWhitespace, currentType, openToken, hblank, hblank', hbreak, hdrop, hstart]
  rw [(State.scan_eq _ _).1, (State.scan_eq _ _).2]
  constructor <;> simp [scanPasses, hfirst, Outcome.token?, Outcome.finding?]

/-- A line break of two characters is indentation from its first character on at the beginning of a
source, and from its second on elsewhere. -/
theorem State.Idle.matched_carriageReturn (h : (State.after {} cs).Idle) (hcs : cs ≠ []) :
    Matched (.shifted (Position.start.advanceAll cs) (State.after {} cs).nextId) []
      (State.itemsOf {} ['\r', '\n']) ((State.after {} cs).itemsOf ['\r', '\n'])
      (State.after {} ['\r', '\n']) (State.after {} (cs ++ ['\r', '\n'])) := by
  have hs := State.settled_after cs
  have hnext : (State.after {} cs).next ≠ .start := by
    obtain ⟨c, rest, rfl⟩ := List.exists_cons_of_ne_nil hcs
    rw [hs.next, Position.advanceAll_cons]
    exact ne_of_gt (lt_of_lt_of_le (Position.lt_advance _ c) (Position.le_advanceAll _ rest))
  obtain ⟨hitems₁, hstate₁⟩ := h.scan_carriageReturn hs.window hnext
  obtain ⟨hitems₂, hstate₂⟩ := h.scan_lineFeed hs.window
  have hitems : (State.after {} cs).itemsOf ['\r', '\n'] = [] := by
    simp [hitems₁, hstate₁, hitems₂]
  have hstate : State.after {} (cs ++ ['\r', '\n']) =
      (((State.after {} cs).arrive '\r').arrive '\n').openToken .whitespace
        (State.after {} cs).next := by
    simp [State.after_append, hstate₁, hstate₂]
  have hfirst : State.after {} ['\r', '\n'] =
      (((State.after {} []).arrive '\r').arrive '\n').openToken .whitespace
        (State.after {} []).next := by decide +kernel
  have hnone : State.itemsOf {} ['\r', '\n'] = [] := by decide +kernel
  rw [hitems, hnone, hstate, hfirst]
  obtain ⟨base, hframes, hsent, hlike⟩ := h.matched
  exact ⟨base, hframes, hsent,
    State.Like.openToken ((hlike.toBeside.arrive '\r').arrive '\n') .whitespace hlike.next⟩

/-- The run after a text that leaves nothing open is matched with the run over the rest alone. -/
theorem State.Idle.matched_after (h : (State.after {} cs).Idle)
    (hfirst : cs = [] ∨ StartsPlain ds) :
    Matched (.shifted (Position.start.advanceAll cs) (State.after {} cs).nextId) []
      (State.itemsOf {} ds) ((State.after {} cs).itemsOf ds) (State.after {} ds)
      (State.after {} (cs ++ ds)) := by
  have hstart := h.matched
  cases ds with
  | nil => simpa using hstart
  | cons c rest =>
    have hrun (hsame : ((State.after {} []).arrive c).SameStart ((State.after {} cs).arrive c)) :
        Matched (.shifted (Position.start.advanceAll cs) (State.after {} cs).nextId) []
          (State.itemsOf {} (c :: rest)) ((State.after {} cs).itemsOf (c :: rest))
          (State.after {} (c :: rest)) (State.after {} (cs ++ c :: rest)) := by
      have hone := hstart.scan_of_sameStart hsame
      rw [← State.after_concat, ← State.after_concat] at hone
      have hall := hone.after (by simp) (by simp) rest
      simpa [State.after_append] using hall
    by_cases hcs : cs = []
    · subst hcs
      exact hrun fun _ _ _ => Iff.rfl
    · have hplain := hfirst.resolve_left hcs
      -- blanks at the beginning of a source are indentation, and later only after a line break
      by_cases hblank : Text.isBlank c = true
      · rcases hplain c rfl hblank with ⟨more, hmore⟩ | ⟨more, hmore⟩
        · apply hrun
          intro _ _ hbreak
          have hc : c = '\n' := by simpa using (List.cons.inj hmore).1.symm
          subst hc
          simp [State.arrive, Window.push] at hbreak
        · obtain ⟨rfl, rfl⟩ : c = '\r' ∧ rest = '\n' :: more := by simpa using hmore.symm
          have hall := (h.matched_carriageReturn hcs).after (by simp) (by simp) more
          simpa [State.after_append] using hall
      · apply hrun
        exact State.sameStart_of_visible ((State.settled_after []).arrive c).window
          ((State.settled_after []).arrive c).last (by simpa using hblank)

/-- A text that leaves nothing open changes in the items of the rest where these are counted from
and what the first of their tokens is linked to. -/
theorem scanText_append (h : (State.after {} cs).Idle) (hfirst : cs = [] ∨ StartsPlain ds) :
    scanText (cs ++ ds) = scanText cs ++
      linkFirst ((tokensOf (scanText cs)).getLast?.map Token.id)
        ((scanText ds).map
          (Item.shifted (Position.start.advanceAll cs) (State.after {} cs).nextId)) := by
  have hlike := (h.matched_after hfirst).finish
  have hcs : scanText cs = State.itemsOf {} cs := by rw [scanText, h.finish_items, List.append_nil]
  have hall : scanText (cs ++ ds) = scanText cs ++
      ((State.after {} cs).itemsOf ds ++ (State.after {} (cs ++ ds)).finish.items) := by
    rw [hcs, scanText, State.itemsOf_append, List.append_assoc]
  obtain ⟨s, hwhole⟩ := (State.grown_after (cs ++ ds)).finish (State.settled_after _)
  obtain ⟨t, hpart⟩ := (State.grown_after ds).finish (State.settled_after _)
  have hwhole' := hwhole.wellFormed
  rw [← scanText, hall, tokensOf_append] at hwhole'
  have hsound := Item.eq_linkFirst_of_like (tokensOf (scanText cs)) hlike hpart.wellFormed.siblings
    hwhole'.siblings (fun t ht => hpart.wellFormed.sound ht)
    (fun t ht => hwhole'.sound (List.mem_append_right _ ht))
  rw [hall, hsound]
  rfl

end Idle

end Scan

namespace Source

/-- If nothing is pending or open at the end of a first text, and the second does not begin with
blanks that are no line break, then the items of the two joined are those of the first and then
those of the second, counted from the end of the first and linked to the last token before them. -/
theorem tokenize_append (first second whole : Source) (hfirst : first.characters.failure = none)
    (hsecond : second.characters.failure = none)
    (hwhole : whole.characters =
      { items := first.characters.items ++ second.characters.items })
    (hidle : (Scan.State.after {} first.characters.items).Idle)
    (hplain : first.characters.items = [] ∨ Scan.StartsPlain second.characters.items) :
    whole.tokenize.items = first.tokenize.items ++
      linkFirst ((tokensOf first.tokenize.items).getLast?.map Token.id)
        (second.tokenize.items.map
          (Item.shifted (Position.start.advanceAll first.characters.items)
            (Scan.State.after {} first.characters.items).nextId)) := by
  rw [items_tokenize hfirst, items_tokenize hsecond, items_tokenize (by rw [hwhole]), hwhole]
  exact Scan.scanText_append hidle hplain

/-- A rule on a line of its own after another rule. -/
theorem tokenize_append_rules :
    let first := ofString "a{b:c}"
    let second := ofString "\r\nd{}"
    let whole := ofString "a{b:c}\r\nd{}"
    (Scan.State.after {} first.characters.items).Idle ∧
    whole.tokenize.items = first.tokenize.items ++
      linkFirst (some 1) (second.tokenize.items.map (Item.shifted ⟨1, 7⟩ 3)) := by
  intro first second whole
  have hfirst : first.characters = { items := "a{b:c}".toList } := by
    rw [characters_ofString]
    decide +kernel
  have hsecond : second.characters = { items := "\r\nd{}".toList } := by
    rw [characters_ofString]
    decide +kernel
  have hwhole : whole.characters = { items := "a{b:c}\r\nd{}".toList } := by
    rw [characters_ofString]
    decide +kernel
  have hidle : (Scan.State.after {} "a{b:c}".toList).Idle := by
    constructor <;> decide +kernel
  have happend := tokenize_append first second whole (by rw [hfirst]) (by rw [hsecond])
    (by rw [hwhole, hfirst, hsecond]; decide +kernel) (by rw [hfirst]; exact hidle)
    (by rw [hsecond]; exact Or.inr fun _ _ _ => Or.inr (by decide))
  have hlast : (tokensOf first.tokenize.items).getLast?.map Token.id = some 1 := by
    rw [items_tokenize (by rw [hfirst]), hfirst]
    decide +kernel
  have horigin : Position.start.advanceAll "a{b:c}".toList = ⟨1, 7⟩ := by decide +kernel
  have hnumbers : (Scan.State.after {} "a{b:c}".toList).nextId = 3 := by decide +kernel
  rw [hlast, hfirst, horigin, hnumbers] at happend
  rw [hfirst]
  exact ⟨hidle, happend⟩

end Source

end Stylesheet
