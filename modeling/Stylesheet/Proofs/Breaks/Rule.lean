import Stylesheet.Proofs.Breaks.Token
import Stylesheet.Proofs.Scan.Consistency

set_option autoImplicit false

/-! # Rules in both spellings

`State.crlf` is the state in which a run stands that reads the same text with line breaks of two
characters. A rule that looks at any character but a line break says the same in both states, up to
the spelling of what it says (`Rule.scan_crlf`). -/

namespace Stylesheet

/-- The open comment, its offset counted anew in the text. -/
def OpenComment.crlf (text : List Char) (k : OpenComment) : OpenComment :=
  { k with offset := Text.crlfOffset text k.offset }

def OpenBlock.crlf (b : OpenBlock) : OpenBlock := { b with recent := b.recent.map Token.crlf }

namespace OpenBlock

@[simp] theorem headerStart_crlf (b : OpenBlock) : b.crlf.headerStart = b.headerStart := rfl

@[simp] theorem crlf_add (b : OpenBlock) (t : Token) : (b.add t).crlf = b.crlf.add t.crlf := by
  simp [crlf, add, Function.comp_def]

@[simp] theorem crlf_close (b : OpenBlock) (stop : Position) :
    (b.close stop).crlf = b.crlf.close stop := by
  simp [close, Token.crlf_ofChildren, children, crlf]

end OpenBlock

namespace Scan

def Outcome.crlf : Outcome → Outcome
  | skip => skip
  | consumed => consumed
  | token t => token t.crlf
  | finding f => finding f.crlf
  | recovered t f => recovered t.crlf f.crlf

/-- The state of a run over the text with line breaks of two characters. -/
def State.crlf (s : State) : State :=
  { s with
    window := s.window.crlf
    comment := s.comment.map (OpenComment.crlf s.window.text)
    blocks := s.blocks.map OpenBlock.crlf }

/-- What a rule does in a run over the text with line breaks of two characters. -/
def respelled (result : Outcome × State) : Outcome × State := (result.1.crlf, result.2.crlf)

namespace State

variable {s : State} {cs : List Char} {c : Char}

/-! ## What the rules ask for -/

theorem crlf_clearWindow (hk : s.comment = none) : s.clearWindow.crlf = s.crlf.clearWindow := by
  simp [crlf, clearWindow, hk]

theorem currentType_crlf : s.crlf.currentType = s.currentType := rfl

theorem beginProperty_crlf : s.crlf.beginProperty = respelled s.beginProperty := by
  unfold beginProperty
  have htext : s.crlf.window.text = Text.crlf s.window.text := Window.text_crlf _
  have hcells : s.crlf.window.cells = Cell.crlf s.window.cells := Window.cells_crlf _
  rw [htext, Payload.declarationName?_crlf, hcells, Cell.span?_crlf]
  split <;> rfl

theorem headerIssue_crlf (text : List Char) :
    headerIssue (Text.crlf text) = (headerIssue text).mapText Text.withCrlf := by
  unfold headerIssue
  rw [Selector.firstForbidden?_crlf]
  split <;> simp [Issue.mapText]

theorem beginWhitespace_crlf (hk : s.comment = none) (hw : s.window.Sound)
    (hr : '\r' ∉ s.window.text) (c : Char) :
    s.crlf.beginWhitespace c = respelled (s.beginWhitespace c) := by
  have hblank : s.crlf.window.isBlank = s.window.isBlank := Window.isBlank_crlf hw
  have hstart : s.crlf.window.start? = s.window.start? := Window.start?_crlf _
  have hbreak : s.crlf.window.lineBreak = s.window.lineBreak.map (Text.crlfOffset s.window.text) :=
    Window.lineBreak_crlf hw hr
  have hopened (w : Window) :
      { s.crlf with window := w.crlf }.openToken .whitespace (w.crlf.start?.getD s.position) =
        ({ s with window := w }.openToken .whitespace (w.start?.getD s.position)).crlf := by
    rw [Window.start?_crlf]
    simp [crlf, openToken, hk]
  unfold beginWhitespace
  rw [hblank, hstart, hbreak]
  split
  · rfl
  · cases s.window.lineBreak with
    | some offset =>
      have hdrop : s.crlf.window.dropBefore (Text.crlfOffset s.window.text offset) =
          (s.window.dropBefore offset).crlf := Window.dropBefore_crlf _ _
      simp only [Option.map_some, hdrop]
      exact congrArg (fun s => (Outcome.consumed, s)) (hopened _)
    | none =>
      dsimp only [Option.map_none]
      split
      · exact congrArg (fun s => (Outcome.consumed, s)) (hopened _)
      · rfl

section Last

variable (hlast : s.window.cells = s.window.body ++ [⟨c, s.position⟩]) (hc : c ≠ '\n')

include hlast hc

theorem recent_crlf :
    s.crlf.window.recent = ⟨c, s.position⟩ :: (Cell.crlf s.window.body).reverse := by
  have hcells : s.crlf.window.cells = Cell.crlf s.window.body ++ [⟨c, s.position⟩] := by
    rw [crlf, Window.cells_crlf, hlast, Cell.crlf_append, Cell.crlf_singleton hc]
  rw [← List.reverse_reverse s.crlf.window.recent, ← Window.cells, hcells]
  simp

theorem last?_crlf : s.crlf.window.last? = some c := by
  rw [Window.last?, recent_crlf hlast hc]
  rfl

theorem body_crlf : s.crlf.window.body = Cell.crlf s.window.body := by
  rw [Window.body, recent_crlf hlast hc, List.tail_cons, List.reverse_reverse]

theorem bodyText_crlf : s.crlf.bodyText = Text.crlf s.bodyText := by
  rw [bodyText, body_crlf hlast hc, Cell.text_crlf, bodyText]

theorem bodyStop_crlf : s.crlf.bodyStop = s.bodyStop := by
  rw [bodyStop, body_crlf hlast hc, Cell.span?_crlf, bodyStop]
  rfl

theorem trimmedBody_crlf : s.crlf.trimmedBody = Text.withCrlf s.trimmedBody := by
  rw [trimmedBody, bodyText_crlf hlast hc, Text.trim_crlf, trimmedBody, Text.withCrlf_ofList]

theorem headerStart_crlf : s.crlf.headerStart = s.headerStart := by
  unfold headerStart
  rw [body_crlf hlast hc, Cell.span?_crlf]
  rfl

/-! ## At-rules -/

theorem closeAtRule_crlf (opened : OpenToken) :
    s.crlf.closeAtRule opened c = respelled (s.closeAtRule opened c) := by
  unfold closeAtRule
  rw [bodyText_crlf hlast hc, Text.insideString_crlf, Text.openParens_crlf,
    Payload.splitAtRule_crlf, bodyStop_crlf hlast hc]
  split
  · rfl
  · split <;> rfl

theorem scanAtRule_crlf : s.crlf.scanAtRule c = respelled (s.scanAtRule c) := by
  unfold scanAtRule
  have htext : s.crlf.window.text = Text.crlf s.window.text := Window.text_crlf _
  rw [htext, Payload.isAtSign_crlf, show s.crlf.current = s.current from rfl]
  split
  · split
    · exact closeAtRule_crlf hlast hc _
    · rfl
  · split <;> rfl

/-! ## Selectors -/

theorem takeSelector_crlf : s.crlf.takeSelector = respelled s.takeSelector := by
  obtain ⟨lead, trail, -, -, hbody, htrail⟩ := Text.exists_trim s.bodyText
  have hfirst : Text.byteSize s.bodyText - Text.byteSize (Text.trimStart s.bodyText) =
      Text.byteSize lead := by
    have hsize := congrArg Text.byteSize hbody
    rw [Text.byteSize_append] at hsize
    omega
  have hfirst' : Text.byteSize (Text.crlf s.bodyText) -
      Text.byteSize (Text.crlf (Text.trimStart s.bodyText)) = Text.byteSize (Text.crlf lead) := by
    have hsize := congrArg (fun cs => Text.byteSize (Text.crlf cs)) hbody
    simp only [Text.crlf_append, Text.byteSize_append] at hsize
    omega
  have hwhole : s.window.text = lead ++ (Text.trim s.bodyText ++ (trail ++ [c])) := by
    have htext : s.window.text = s.bodyText ++ [c] := by simp [Window.text, hlast, bodyText]
    rw [htext, ← List.append_assoc (Text.trim _), ← htrail, ← List.append_assoc, ← hbody]
  have hanchors : s.crlf.window.anchors (Text.byteSize (Text.crlf lead)) (Text.byteSize
      (Text.crlf lead) + Text.byteSize (Text.crlf (Text.trim s.bodyText))) = _ :=
    s.window.anchors_crlf hwhole
  unfold takeSelector
  dsimp only
  rw [bodyText_crlf hlast hc, Text.trim_crlf, Text.insideString_crlf, Selector.isSelector_crlf,
    body_crlf hlast hc, Cell.span?_crlf, Text.trimStart_crlf, hfirst, hfirst', hanchors,
    ← Text.withCrlf_ofList]
  split
  · rfl
  · split
    · rfl
    · simp only [respelled, Outcome.crlf, Token.crlf, Token.ofLeaf, Token.mapLeaf, Leaf.crlf,
        String.toList_ofList]
      rfl

theorem scanSelector_crlf : s.crlf.scanSelector c = respelled (s.scanSelector c) := by
  unfold scanSelector
  rw [currentType_crlf]
  split
  · rfl
  · split
    · exact takeSelector_crlf hlast hc
    · exact takeSelector_crlf hlast hc
    · rfl

/-! ## Declarations -/

theorem closeProperty_crlf (opened : OpenToken) (name : String) :
    s.crlf.closeProperty opened name c = respelled (s.closeProperty opened name c) := by
  unfold closeProperty
  rw [bodyText_crlf hlast hc, Text.insideString_crlf, Text.openParens_crlf,
    Payload.declarationValue?_crlf, bodyStop_crlf hlast hc]
  split
  · rfl
  · split <;> rfl

theorem rejectContent_crlf (hk : s.comment = none) :
    s.crlf.rejectContent = respelled s.rejectContent := by
  unfold rejectContent
  rw [bodyText_crlf hlast hc, Text.insideString_crlf, body_crlf hlast hc, Cell.span?_crlf,
    trimmedBody_crlf hlast hc, ← crlf_clearWindow hk]
  split
  · rfl
  · split <;> rfl

theorem scanProperty_crlf (hk : s.comment = none) :
    s.crlf.scanProperty c = respelled (s.scanProperty c) := by
  unfold scanProperty
  have hempty : s.crlf.blocks.isEmpty = s.blocks.isEmpty := by simp [crlf]
  rw [hempty, show s.crlf.current = s.current from rfl]
  split
  · rfl
  · split
    · split
      · exact closeProperty_crlf hlast hc _ _
      · rfl
    · split
      · exact beginProperty_crlf
      · split
        · exact rejectContent_crlf hlast hc hk
        · rfl

/-! ## Blocks -/

theorem beginBlock_crlf (hk : s.comment = none) : s.crlf.beginBlock = respelled s.beginBlock := by
  unfold beginBlock
  rw [bodyText_crlf hlast hc, Text.insideString_crlf, body_crlf hlast hc, Cell.span?_crlf,
    Text.trim_crlf, headerIssue_crlf, headerStart_crlf hlast hc]
  have hopened : (s.crlf.openBlock s.crlf.position s.headerStart).clearWindow =
      ((s.openBlock s.position s.headerStart).clearWindow).crlf := by
    simp [crlf, clearWindow, openBlock, hk, OpenBlock.crlf]
  split
  · rfl
  · rw [hopened]
    split <;> rfl

theorem closeBlock_crlf (hk : s.comment = none) : s.crlf.closeBlock = respelled s.closeBlock := by
  unfold closeBlock
  rw [bodyText_crlf hlast hc, Text.insideString_crlf, body_crlf hlast hc, Cell.span?_crlf,
    trimmedBody_crlf hlast hc, ← crlf_clearWindow hk]
  split
  · rfl
  · cases hblocks : s.blocks with
    | nil =>
      have hblocks' : s.crlf.blocks = [] := by simp [crlf, hblocks]
      rw [hblocks']
      cases Cell.span? s.window.body <;> rfl
    | cons b blocks =>
      have hblocks' : s.crlf.blocks = b.crlf :: blocks.map OpenBlock.crlf := by
        simp [crlf, hblocks]
      rw [hblocks']
      cases Cell.span? s.window.body with
      | none => exact congrArg (fun t => (Outcome.token t, _)) (b.crlf_close s.next).symm
      | some span => exact congrArg (fun t => (Outcome.recovered t _, _)) (b.crlf_close s.next).symm

theorem abandonProperty_crlf (hk : s.comment = none) :
    s.crlf.abandonProperty = respelled s.abandonProperty := by
  unfold abandonProperty
  rw [bodyText_crlf hlast hc, Text.insideString_crlf, Text.openParens_crlf]
  split
  · rfl
  · exact beginBlock_crlf (s := { s with current := none }) hlast hc hk

theorem scanBlock_crlf (hk : s.comment = none) :
    s.crlf.scanBlock c = respelled (s.scanBlock c) := by
  unfold scanBlock
  rw [currentType_crlf]
  split
  · split
    · exact beginBlock_crlf hlast hc hk
    · split
      · exact closeBlock_crlf hlast hc hk
      · rfl
  · split
    · exact abandonProperty_crlf hlast hc hk
    · rfl
  · rfl

/-! ## Indentation -/

theorem scanWhitespace_crlf (hk : s.comment = none) (hw : s.window.Sound)
    (hr : '\r' ∉ s.window.text) :
    s.crlf.scanWhitespace c = respelled (s.scanWhitespace c) := by
  unfold scanWhitespace
  rw [bodyText_crlf hlast hc, ← Text.withCrlf_ofList, show s.crlf.current = s.current from rfl]
  split
  · split
    · split <;> rfl
    · rfl
  · exact beginWhitespace_crlf hk hw hr c

end Last

/-! ## Comments -/

theorem continueComment_crlf (hs : s.Offered cs c) {k : OpenComment} (hk : s.comment = some k) :
    s.crlf.continueComment (k.crlf s.window.text) = respelled (s.continueComment k) := by
  obtain ⟨before, inside, slash, star, hbody, hslash, hstar, hoffset, -⟩ := hs.coherent.comment k hk
  have hcells : s.window.cells = before ++ slash :: star :: (inside ++ [⟨c, s.position⟩]) := by
    rw [hs.cells, hbody]
    simp
  have hspelled : s.window.crlf.cells =
      Cell.crlf before ++ slash :: star :: Cell.crlf (inside ++ [⟨c, s.position⟩]) := by
    rw [Window.cells_crlf, hcells]
    simp [Cell.crlf, Cell.spelled, hslash, hstar]
  have hoffset' : (k.crlf s.window.text).offset = Text.byteSize (Cell.text (Cell.crlf before)) := by
    rw [OpenComment.crlf, Window.text, hcells, Cell.text, List.map_append, ← hoffset,
      Text.crlfOffset_byteSize, Cell.text_crlf]
  -- a comment is ended in one spelling if it is ended in the other
  have hopen : (s.crlf.window.bytes < (k.crlf s.window.text).offset + 4 ∨
      s.crlf.window.endsIn ['*', '/'] = false) ↔
      (s.window.bytes < k.offset + 4 ∨ s.window.endsIn ['*', '/'] = false) := by
    rw [hoffset', ← hoffset, Window.isOpen_iff hs.window.bytes hcells hslash hstar]
    show s.window.crlf.bytes < _ ∨ s.window.crlf.endsIn _ = _ ↔ _
    rw [Window.isOpen_iff s.window.sound_crlf.bytes hspelled hslash hstar, Cell.text_crlf,
      Text.suffix_crlf_iff (by decide)]
  have htruncate : s.crlf.window.truncate (k.crlf s.window.text).offset =
      (s.window.truncate k.offset).crlf := Window.truncate_crlf _ _
  unfold continueComment
  simp only [hopen, htruncate]
  split
  · rfl
  · next hended =>
    have hclean : Payload.cleanComment (s.crlf.commentText (k.crlf s.window.text).offset) =
        Payload.cleanComment (s.commentText k.offset) := by
      have hsuffix : ['*', '/'] <:+ Cell.text (inside ++ [⟨c, s.position⟩]) := by
        rw [← hoffset, Window.isOpen_iff hs.window.bytes hcells hslash hstar, not_not] at hended
        exact hended
      obtain ⟨raw, hraw⟩ := hsuffix
      have htext : s.window.text = Cell.text before ++ ['/', '*'] ++ raw ++ ['*', '/'] := by
        rw [List.append_assoc _ raw, hraw]
        simp [Window.text, hcells, hslash, hstar]
      exact Window.cleanComment_crlf hs.window htext (by decide) hoffset
    rw [hclean]
    show (if k.embedded = true then _ else _) = _
    split <;> rfl

/-- A comment opened at the end of the window is opened in the same place in both spellings. -/
theorem openComment_crlf (hw : s.window.Sound) {star slash : Cell} {front : List Cell}
    (hcells : s.window.cells = front ++ [slash, star]) (hstar : star.char = '*')
    (hslash : slash.char = '/') (start : Position) (embedded : Bool) :
    s.crlf.openComment (s.crlf.window.bytes - 2) start embedded =
      (s.openComment (s.window.bytes - 2) start embedded).crlf := by
  have htext : s.window.text = Cell.text front ++ ['/', '*'] := by
    simp [Window.text, hcells, hstar, hslash]
  have hbytes : s.window.bytes - 2 = Text.byteSize (Cell.text front) := by
    rw [hw.bytes, htext, Text.byteSize_append]
    exact Nat.add_sub_cancel ..
  have hbytes' : s.crlf.window.bytes - 2 = Text.crlfOffset s.window.text (s.window.bytes - 2) := by
    rw [hbytes, htext, Text.crlfOffset_byteSize, crlf, Window.bytes_crlf, htext,
      Text.crlf_append, Text.byteSize_append]
    exact Nat.add_sub_cancel ..
  rw [hbytes']
  rfl

section Offered

variable (hs : s.Offered cs c) (hc : c ≠ '\n')

include hs hc

theorem beginComment_crlf : s.crlf.beginComment = respelled s.beginComment := by
  have hrecent : s.window.recent = ⟨c, s.position⟩ :: s.window.body.reverse := by
    rw [← List.reverse_reverse s.window.recent, ← Window.cells, hs.cells]
    simp
  unfold beginComment
  rw [recent_crlf hs.cells hc, hrecent]
  rcases List.eq_nil_or_concat s.window.body with hbody | ⟨front, slash, hbody⟩
  · rw [hbody]
    rfl
  · rw [List.concat_eq_append] at hbody
    by_cases hslash : slash.char = '\n'
    · simp [hbody, Cell.crlf, Cell.spelled, hslash, respelled, Outcome.crlf]
    · have hcells : s.window.cells = front ++ [slash, ⟨c, s.position⟩] := by
        rw [hs.cells, hbody]
        simp
      rw [hbody, Cell.crlf_append, Cell.crlf_singleton hslash]
      simp only [List.reverse_append, List.reverse_singleton, List.singleton_append,
        List.reverse_reverse, Cell.text_crlf, Text.insideString_crlf, Text.insideUrl_crlf,
        Text.allBlank_crlf]
      split
      · next hopen =>
        split
        · rfl
        · rw [openComment_crlf hs.window hcells hopen.1 hopen.2]
          rfl
      · rfl

theorem scanComment_crlf : s.crlf.scanComment = respelled s.scanComment := by
  cases hk : s.comment with
  | none =>
    have hk' : s.crlf.comment = none := by simp [crlf, hk]
    rw [scanComment, hk', scanComment, hk]
    exact beginComment_crlf hs hc
  | some k =>
    have hk' : s.crlf.comment = some (k.crlf s.window.text) := by simp [crlf, hk]
    rw [scanComment, hk', scanComment, hk]
    exact continueComment_crlf hs hk

end Offered

end State

/-- A rule makes the same of a character that is no line break in both spellings. -/
theorem Rule.scan_crlf {s : State} {cs : List Char} {c : Char} (hs : s.Offered cs c) (hc : c ≠ '\n')
    (hr : '\r' ∉ s.window.text) (rule : Rule) (hrule : rule ≠ .lineEnding) :
    rule.scan s.crlf = respelled (rule.scan s) := by
  have hcomment : s.crlf.comment.isSome = s.comment.isSome := by simp [State.crlf]
  unfold Rule.scan
  rw [hs.last, State.last?_crlf hs.cells hc, hcomment]
  dsimp only
  split
  · rfl
  · next hopen =>
    cases rule with
    | lineEnding => exact absurd rfl hrule
    | comment => exact State.scanComment_crlf hs hc
    | atRule => exact State.scanAtRule_crlf hs.cells hc
    | selector => exact State.scanSelector_crlf hs.cells hc
    | property => exact State.scanProperty_crlf hs.cells hc (by simpa using hopen)
    | block => exact State.scanBlock_crlf hs.cells hc (by simpa using hopen)
    | whitespace => exact State.scanWhitespace_crlf hs.cells hc (by simpa using hopen) hs.window hr

end Scan

end Stylesheet
