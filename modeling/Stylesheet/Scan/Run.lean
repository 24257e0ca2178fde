import Stylesheet.Scan.Rule

set_option autoImplicit false

/-! # Scanning a text

A character is put into the window and offered to the rules in order until one claims it. When the
claim finishes a token, the token is put where it belongs and the window is emptied; if the
character may also begin what follows, it is put into the empty window again and offered to the
other rules. At the end of the text everything still open is closed by force.

`State.scan` is one character, `State.feed` a text, `State.finish` the end, and `scanText` the
whole. Next to the items of the stream, scanning tells what it did (`Event`), for those who want
to follow it. -/

namespace Stylesheet.Scan

/-- What happened while scanning. -/
inductive Event where
  /-- A rule finished a token. -/
  | token (rule : Rule) (type : TokenType) (start : Position)
  /-- A block was opened at a position; the depth is counted with it. -/
  | blockOpened (position : Position) (depth : Nat)
  /-- A block was closed before a position; the depth is counted without it. -/
  | blockClosed (position : Position) (depth : Nat)
  /-- A block was closed at the end of the source. -/
  | blockForceClosed (depth : Nat)
deriving DecidableEq, Repr

/-- What one character, or the end of the source, brought about. -/
structure Output where
  items : List Item := []
  events : List Event := []
deriving DecidableEq, Repr

/-- First one output and then the other. -/
def Output.append (a b : Output) : Output := ⟨a.items ++ b.items, a.events ++ b.events⟩

instance : Append Output := ⟨Output.append⟩

@[simp] theorem Output.items_append (a b : Output) : (a ++ b).items = a.items ++ b.items := rfl

@[simp] theorem Output.events_append (a b : Output) : (a ++ b).events = a.events ++ b.events := rfl

namespace State

/-! ## One character -/

/-- Offers the last character of the window to the rules in order. The first rule that does not
skip decides; rules that skip may still have moved the state on. -/
def firstClaim : List Rule → State → Option (Rule × Outcome) × State
  | [], s => (none, s)
  | rule :: rules, s =>
    match rule.scan s with
    | (.skip, s) => firstClaim rules s
    | (outcome, s) => (some (rule, outcome), s)

/-- The block that was opened or closed between two states. -/
def blockEvents (before after : State) : List Event :=
  if after.depth = before.depth + 1 then [.blockOpened before.position after.depth]
  else if after.depth + 1 = before.depth then [.blockClosed before.next after.depth]
  else []

/-- Puts a token that a rule has finished where it belongs and empties the window. -/
def complete (s : State) (t : Token) : List Item × State :=
  let (items, s) := (s.recordCompleted t).accept t
  (items, s.clearWindow)

/-- The rules that may claim a character again after `producer` finished a token at it. The rule
for line endings has already counted the character. -/
def rescanRules (producer : Rule) : List Rule := Rule.order.tail.filter (· ≠ producer)

/-- Some rule other than `producer` may take over the character that finished a token. -/
def continues (type : TokenType) (producer : Rule) (c : Char) : Bool :=
  type.isBoundary && Rule.order.any fun rule => rule ≠ producer && rule.handsOff type c

/-- Offers the character `c` at the end of the window to the rules, and again after every hand-off,
`passes` times at most. -/
def scanPasses (c : Char) : (passes : Nat) → List Rule → State → Output × State
  | 0, _, s => ({}, s)
  | passes + 1, rules, s =>
    match firstClaim rules s with
    | (none, s') => ({}, s')
    | (some (rule, outcome), s') =>
      let found := outcome.finding?.toList.map Item.finding
      match outcome.token? with
      | none => ({ items := found, events := blockEvents s s' }, s')
      | some t =>
        let (items, completed) := s'.complete t
        let output : Output :=
          { items := found ++ items
            events := blockEvents s s' ++ [.token rule t.type t.start] }
        if continues t.type rule c then
          let (more, last) := scanPasses c passes (rescanRules rule) (completed.pushAgain c)
          (output ++ more, last)
        else (output, completed)

/-- Scans one character. A pass is followed by another only when it finished a token that hands the
character on, and no token finished in that other pass does so again; as many passes as there are
rules are more than enough. -/
def scan (s : State) (c : Char) : Output × State :=
  scanPasses c Rule.order.length Rule.order (s.push c)

/-! ## A text -/

/-- Scans a text; the outputs are those of its characters, one each. -/
def feed (s : State) (cs : List Char) : Array Output × State :=
  cs.foldl (fun (outputs, s) c =>
    let (output, s) := s.scan c
    (outputs.push output, s)) (#[], s)

/-- The state after a text. -/
def after (s : State) (cs : List Char) : State := (s.feed cs).2

/-- The items that scanning a text produces. -/
def itemsOf (s : State) (cs : List Char) : List Item := (s.feed cs).1.toList.flatMap Output.items

theorem foldl_feed (cs : List Char) (outputs : Array Output) (s : State) :
    cs.foldl (fun (outputs, s) c =>
      let (output, s) := s.scan c
      (outputs.push output, s)) (outputs, s) = (outputs ++ (s.feed cs).1, (s.feed cs).2) := by
  induction cs generalizing outputs s with
  | nil => simp [feed]
  | cons c cs ih =>
    have h := ih #[(s.scan c).1] (s.scan c).2
    simp only [feed, List.foldl_cons, List.push_toArray, List.nil_append] at h ⊢
    rw [ih, h]
    simp [feed]

theorem feed_cons (s : State) (c : Char) (cs : List Char) :
    s.feed (c :: cs) = (#[(s.scan c).1] ++ ((s.scan c).2.feed cs).1, ((s.scan c).2.feed cs).2) :=
  foldl_feed cs #[(s.scan c).1] (s.scan c).2

@[simp] theorem after_nil (s : State) : s.after [] = s := rfl

@[simp] theorem after_cons (s : State) (c : Char) (cs : List Char) :
    s.after (c :: cs) = (s.scan c).2.after cs := by
  simp [after, feed_cons]

/-- Scanning two texts one after the other is scanning them joined. -/
theorem after_append (s : State) (cs ds : List Char) :
    s.after (cs ++ ds) = (s.after cs).after ds := by
  induction cs generalizing s with
  | nil => rfl
  | cons c cs ih => simp [ih]

@[simp] theorem itemsOf_nil (s : State) : s.itemsOf [] = [] := rfl

@[simp] theorem itemsOf_cons (s : State) (c : Char) (cs : List Char) :
    s.itemsOf (c :: cs) = (s.scan c).1.items ++ (s.scan c).2.itemsOf cs := by
  simp [itemsOf, feed_cons]

/-- The items of two texts one after the other are those of the first and then those that the
second adds to its state. -/
theorem itemsOf_append (s : State) (cs ds : List Char) :
    s.itemsOf (cs ++ ds) = s.itemsOf cs ++ (s.after cs).itemsOf ds := by
  induction cs generalizing s with
  | nil => rfl
  | cons c cs ih => simp [ih]

/-! ## The end of the source -/

/-- The finding that something is still open at the end. -/
def unclosed (s : State) (type : TokenType) (start : Position) : Item :=
  .finding (.spanning (.unclosed type) start s.next)

/-- Closes an open comment: a comment that stands alone becomes a token, one among other text is
taken out of it. -/
def finishComment (s : State) : List Item × State :=
  match s.comment with
  | none => ([], s)
  | some comment =>
    let s := { s with comment := none }
    let found := s.unclosed .comment comment.start
    if comment.embedded then
      ([found], { s with window := s.window.truncate comment.offset })
    else
      let raw := (Text.slice? (comment.offset + 2) s.window.bytes s.window.text).getD []
      let (items, s) := s.accept (comment.close (Payload.cleanComment raw) s.next)
      (found :: items, s.clearWindow)

/-- What an open token says when the source ends. -/
def finalContent (kind : OpenKind) (text : List Char) : Leaf :=
  match kind with
  | .whitespace => .whitespace (String.ofList text)
  | .property name => .property name (Payload.declarationValue? text)
  | .atRule =>
    let (name, value) := Payload.splitAtRule text
    .atRule name value false

/-- The open token, closed at the end of the source, and the state without it. -/
def closeCurrent? (s : State) : Option (Token × State) :=
  s.current.map fun opened =>
    (opened.close (finalContent opened.kind s.window.text) s.next, { s with current := none })

/-- Closes an open token; only indentation may end with the source. -/
def finishCurrent (s : State) : List Item × State :=
  match s.closeCurrent? with
  | none => ([], s)
  | some (t, s) =>
    let found := if t.type = .whitespace then [] else [s.unclosed t.type t.start]
    let (items, s) := s.accept t
    (found ++ items, s.clearWindow)

/-- The finding about pending text that never became a token. -/
def leftover (s : State) : List Item :=
  match Cell.span? s.window.cells with
  | none => []
  | some (start, stop) =>
    [.finding (.spanning (.leftover (String.ofList (Text.trim s.window.text))) start stop)]

/-- Closes a block and the blocks around it, each becoming the last child of the next. The
outermost joins the outermost sequence. -/
def finishBlock (stop : Position) (lastTopLevel : Option TokenId) (b : OpenBlock) :
    (around : List OpenBlock) → Output
  | [] =>
    { items := [.finding (.spanning (.unclosed .block) b.headerStart stop),
        .token ((b.close stop).linkedAfter lastTopLevel)]
      events := [.blockForceClosed 0] }
  | outer :: rest =>
    let output : Output :=
      { items := [.finding (.spanning (.unclosed .block) b.headerStart stop)]
        events := [.blockForceClosed (rest.length + 1)] }
    output ++ finishBlock stop lastTopLevel (outer.add (b.close stop)) rest

/-- Closes the open blocks from the inside out. -/
def finishBlocks (s : State) : Output :=
  match s.blocks with
  | [] => {}
  | b :: around => finishBlock s.next s.lastTopLevel b around

/-- Closes everything that is still open at the end of the source. -/
def finish (s : State) : Output :=
  let (comment, s) := s.finishComment
  let (current, s) := s.finishCurrent
  let blocks := s.finishBlocks
  { items := comment ++ current ++ blocks.items ++ s.leftover, events := blocks.events }

end State

/-- The items of a text. -/
def scanText (cs : List Char) : List Item :=
  State.itemsOf {} cs ++ (State.after {} cs).finish.items

end Stylesheet.Scan
