import Stylesheet.Proofs.Scan.Reading
import Stylesheet.Proofs.Source

set_option autoImplicit false

/-! # Printed stylesheets are read back

Scanning the printed text of a stylesheet gives the tokens of its pieces and one token for every
line end, and no findings. The proof follows the lines of the text: each begins after indentation
(`AtLine`) and ends with nothing pending. -/

namespace Stylesheet

open Printing

namespace Scan

/-! ## Lines -/

/-- A line begins: what is pending, if anything, is indentation that the next visible character
finishes. The levels count that indentation as finished. -/
def AtLine (L : List (List Shape)) (items : List Item) (s : State) : Prop :=
  Reading L none [] items s ∨ ∃ L' text, L = extend [.leaf (.whitespace (String.ofList text))] L' ∧
    Text.allBlank text = true ∧ Reading L' (some .whitespace) text items s

/-- The first visible character of a line is seen with nothing before it. -/
theorem reads_first {L : List (List Shape)} {c : Char} {Q : List Item → State → Prop}
    (hc : Text.isBlank c = false)
    (h : ∀ passes rules items s, Rule.lineEnding ∉ rules → Rule.atRule ∈ rules →
      Rule.property ∈ rules → Rule.block ∈ rules → Offering L none [] c items s →
      Passing c (passes + 1) rules Q items s) : Reads (AtLine L) [c] Q := by
  apply Reads.singleton
  rintro items s (hready | ⟨L', text, rfl, hblank, hindent⟩)
  · exact h 6 _ items _ State.lineEnding_not_mem_tail (by decide) (by decide) (by decide)
      (hready.arrive c)
  · refine (hindent.arrive c).closeWhitespace State.lineEnding_not_mem_tail (by decide) rfl hblank
      hc ?_
    intro items s hagain
    exact h 5 _ items s (State.lineEnding_not_mem_rescanRules _) (by decide) (by decide)
      (by decide) hagain

/-- Text in a declaration or an at-rule stays pending up to what ends it. -/
theorem reads_open {L : List (List Shape)} {kind : Option OpenKind} {text more : List Char}
    (hkind : kind = some .atRule ∨ ∃ name, kind = some (.property name))
    (hmore : ∀ c ∈ more, c ≠ ';' ∧ c ≠ '{' ∧ c ≠ '}')
    (hcomment : ¬ ['/', '*'] <:+: text ++ more) :
    Reads (Reading L kind text) more (Reading L kind (text ++ more)) := by
  induction more generalizing text with
  | nil => exact .nil (by simp)
  | cons c more ih =>
    -- one character joins the pending text, and the rest is read after it
    have hsplit : text ++ c :: more = text ++ [c] ++ more := by simp
    rw [← List.singleton_append, ← List.append_assoc]
    refine Reads.append (Reads.singleton ?_)
      (ih (fun d hd => hmore d (List.mem_cons_of_mem _ hd)) (by rwa [← hsplit]))
    intro items s hs
    refine (hs.arrive c).skip_open State.lineEnding_not_mem_tail ?_ hkind
      (hmore c (List.mem_cons_self ..))
    intro hsuffix
    rw [hsplit] at hcomment
    exact hcomment (hsuffix.isInfix.trans (List.prefix_append _ _).isInfix)

/-- The characters of a name stay pending. -/
theorem reads_name {L : List (List Shape)} {text more : List Char}
    (hmore : ∀ c ∈ more, Text.isNameChar c = true) :
    Reads (Reading L none text) more (Reading L none (text ++ more)) := by
  induction more generalizing text with
  | nil => exact .nil (by simp)
  | cons c more ih =>
    rw [← List.singleton_append, ← List.append_assoc]
    refine Reads.append (Reads.singleton ?_) (ih fun d hd => hmore d (List.mem_cons_of_mem _ hd))
    intro items s hs
    exact (hs.arrive c).skip_name State.lineEnding_not_mem_tail rfl
      (hmore c (List.mem_cons_self ..))

/-- A selector has no slash, so no comment begins in it. -/
theorem not_opens_comment_of_isAllowed {cs : List Char}
    (h : ∀ c ∈ cs, Selector.isAllowed c = true) : ¬ ['/', '*'] <:+ cs := by
  rintro ⟨front, hfront⟩
  have hslash := h '/' (by simp [← hfront])
  exact absurd hslash (by decide)

/-- The characters of a selector stay pending. -/
theorem reads_heading {L : List (List Shape)} {text more : List Char}
    (hvisible : Text.allBlank text = false)
    (hallowed : ∀ c ∈ text ++ more, Selector.isAllowed c = true) :
    Reads (Heading L text) more (Heading L (text ++ more)) := by
  induction more generalizing text with
  | nil => exact .nil (by simp)
  | cons c more ih =>
    have hsplit : text ++ c :: more = text ++ [c] ++ more := by simp
    rw [hsplit] at hallowed
    have hvisible' : Text.allBlank (text ++ [c]) = false := by
      simp only [Text.allBlank, List.all_append, Bool.and_eq_false_iff] at hvisible ⊢
      exact Or.inl hvisible
    rw [← List.singleton_append, ← List.append_assoc]
    refine Reads.append (Reads.singleton ?_) (ih hvisible' hallowed)
    rintro items s ⟨kind, hkind, hs⟩
    refine (hs.arrive c).heading State.lineEnding_not_mem_tail ?_ hkind
      (hallowed c (by simp)) hvisible'
    exact not_opens_comment_of_isAllowed fun d hd => hallowed d (List.mem_append_left _ hd)

/-- No comment begins in text without slashes. -/
theorem not_comment_append {front cs : List Char} (hfront : ∀ c ∈ front, c ≠ '/')
    (hcs : ¬ ['/', '*'] <:+: cs) : ¬ ['/', '*'] <:+: front ++ cs := by
  induction front with
  | nil => exact hcs
  | cons c front ih =>
    intro hinfix
    rcases List.infix_cons_iff.1 hinfix with hprefix | hinfix
    · exact hfront c (List.mem_cons_self ..) (List.cons_prefix_cons.1 hprefix).1.symm
    · exact ih (fun d hd => hfront d (List.mem_cons_of_mem _ hd)) hinfix

/-! ## The lines of a stylesheet -/

/-- The end of a line and the indentation of the next. -/
theorem reads_lineEnd (L : List (List Shape)) (k : Nat) :
    Reads (Reading L none []) ('\n' :: pad k) (AtLine (extend [lineEnd k] L)) := by
  have hspaces (n : Nat) (text : List Char) :
      Reads (Reading L (some .whitespace) text) (List.replicate n ' ')
        (Reading L (some .whitespace) (text ++ List.replicate n ' ')) := by
    induction n generalizing text with
    | zero => exact .nil (by simp)
    | succ n ih =>
      rw [List.replicate_succ, ← List.singleton_append, ← List.append_assoc]
      refine Reads.append (Reads.singleton ?_) (ih _)
      intro items s hs
      exact (hs.arrive ' ').inWhitespace State.lineEnding_not_mem_tail (by decide) rfl rfl
  have hbreak : Reads (Reading L none []) ['\n'] (Reading L (some .whitespace) ['\n']) := by
    apply Reads.singleton
    intro items s hs
    exact (hs.arrive '\n').openWhitespace State.lineEnding_not_mem_tail (by decide) rfl rfl rfl
  refine (hbreak.append (hspaces (2 * k) _)).weaken (fun _ _ h => h) ?_
  intro items s hs
  refine Or.inr ⟨L, '\n' :: pad k, rfl, ?_, hs⟩
  have hblank : Text.isBlank '\n' = true ∧ Text.isBlank ' ' = true := by decide
  simp only [Text.allBlank, List.all_cons, Bool.and_eq_true, List.all_eq_true]
  refine ⟨hblank.1, ?_⟩
  intro d hd
  rw [List.eq_of_mem_replicate hd]
  exact hblank.2

/-- The line that opens a rule. -/
theorem reads_ruleHeader {selector : String} (hselector : Text.IsPlainSelector selector)
    (L : List (List Shape)) :
    Reads (AtLine L) (selector.toList ++ [' ', '{'])
      (Reading ([] :: extend [.leaf (.selector selector [])] L) none []) := by
  obtain ⟨c, rest, hcons, hc⟩ :=
    (Text.isBare_of_isTrimmed hselector.nonempty hselector.trimmed).first
  have hspace : Selector.isAllowed ' ' = true := by decide
  have hallowed : ∀ d ∈ [c] ++ (rest ++ [' ']), Selector.isAllowed d = true := by
    intro d hd
    simp only [List.singleton_append, ← List.cons_append, ← hcons, List.mem_append,
      List.mem_singleton] at hd
    rcases hd with hd | rfl
    · exact (hselector.allowed d hd).1
    · exact hspace
  have hfirst : Reads (AtLine L) [c] (Heading L [c]) := by
    refine reads_first hc ?_
    intro passes rules items s hrules _ _ _ h
    refine h.heading hrules ?_ (Or.inl rfl) (hallowed c (by simp)) (by simp [Text.allBlank, hc])
    exact not_opens_comment_of_isAllowed fun d hd => hallowed d (List.mem_append_left _ hd)
  have hrest := reads_heading (L := L) (by simp [Text.allBlank, hc]) hallowed
  have hbrace : Reads (Heading L (selector.toList ++ [' '])) ['{']
      (Reading ([] :: extend [.leaf (.selector selector [])] L) none []) := by
    apply Reads.singleton
    rintro items s ⟨kind, hkind, hs⟩
    exact (hs.arrive '{').openRule hkind rfl rfl hselector
  -- the first character, the others with the space, and the brace
  have htext : [c] ++ (rest ++ [' ']) = selector.toList ++ [' '] := by simp [hcons]
  have hline := (hfirst.append hrest).append (by rw [htext]; exact hbrace)
  rw [htext] at hline
  simpa using hline

/-- A declaration up to its semicolon. -/
theorem reads_declaration {name value : String} (hname : Text.IsName name)
    (hvalue : Text.IsPlainValue value) {inner outer : List Shape} {rest : List (List Shape)} :
    Reads (AtLine (inner :: outer :: rest)) (name.toList ++ [':', ' '] ++ value.toList ++ [';'])
      (Reading ((inner ++ [.leaf (.property name (some value))]) :: outer :: rest) none []) := by
  obtain ⟨c, more, hcons⟩ := List.exists_cons_of_ne_nil hname.toList_ne_nil
  have hc : Text.isNameChar c = true := hname.chars c (by simp [hcons])
  have hfirst : Reads (AtLine (inner :: outer :: rest)) [c]
      (Reading (inner :: outer :: rest) none [c]) := by
    refine reads_first (Text.isBlank_of_isNameChar hc) ?_
    intro passes rules items s hrules _ _ _ h
    exact h.skip_name hrules rfl hc
  have hrest : Reads (Reading (inner :: outer :: rest) none [c]) more
      (Reading (inner :: outer :: rest) none name.toList) := by
    rw [hcons]
    exact reads_name fun d hd => hname.chars d (by simp [hcons, hd])
  have hcolon : Reads (Reading (inner :: outer :: rest) none name.toList) [':']
      (Reading (inner :: outer :: rest) (some (.property name)) (name.toList ++ [':'])) := by
    apply Reads.singleton
    intro items s hs
    exact (hs.arrive ':').openProperty State.lineEnding_not_mem_tail (by decide) rfl rfl rfl hname
      rfl
  have hcomment : ¬ ['/', '*'] <:+: name.toList ++ [':'] ++ ' ' :: value.toList := by
    rw [← List.singleton_append (x := ' '), ← List.append_assoc]
    refine not_comment_append ?_ hvalue.noComment
    intro d hd
    simp only [List.mem_append, List.mem_singleton] at hd
    rcases hd with (hd | rfl) | rfl
    · exact Text.ne_of_class (hname.chars d hd) (by decide)
    · decide
    · decide
  have hopen := reads_open (L := inner :: outer :: rest) (Or.inr ⟨name, rfl⟩)
    (fun d hd => hvalue.ne_end hd) hcomment
  have hsemicolon : Reads (Reading (inner :: outer :: rest) (some (.property name))
      (name.toList ++ [':'] ++ ' ' :: value.toList)) [';']
      (Reading ((inner ++ [.leaf (.property name (some value))]) :: outer :: rest) none []) := by
    apply Reads.singleton
    intro items s hs
    exact (hs.arrive ';').closeProperty State.lineEnding_not_mem_tail (by decide) rfl rfl
      (by simp) hname hvalue rfl
  have hline := (((hfirst.append hrest).append hcolon).append hopen).append hsemicolon
  simpa [hcons] using hline

/-- The header of an at-rule stays pending. -/
theorem reads_atHeader {name : String} {value : Option String} (hname : Text.IsName name)
    (hvalue : ∀ v, value = some v → Text.IsPlainValue v) (L : List (List Shape)) :
    Reads (AtLine L) (atHeader name value) (Reading L (some .atRule) (atHeader name value)) := by
  have hat : Reads (AtLine L) ['@'] (Reading L (some .atRule) ['@']) := by
    refine reads_first (by decide) ?_
    intro passes rules items s hrules hmem _ _ h
    exact h.openAtRule hrules hmem rfl rfl rfl
  have hslash : ∀ c ∈ name.toList, c ≠ '/' := fun c hc =>
    Text.ne_of_class (hname.chars c hc) (by decide)
  cases value with
  | none =>
    have hfront : ∀ c ∈ ['@'] ++ name.toList, c ≠ '/' := by
      intro c hc
      rcases List.mem_cons.1 hc with rfl | hc
      · decide
      · exact hslash c hc
    have hcomment : ¬ ['/', '*'] <:+: ['@'] ++ name.toList := by
      rw [← List.append_nil (['@'] ++ name.toList)]
      exact not_comment_append hfront (by decide)
    exact hat.append (reads_open (Or.inl rfl) (fun c hc => hname.ne_end hc) hcomment)
  | some value =>
    have hplain := hvalue value rfl
    have hchars : ∀ c ∈ name.toList ++ ' ' :: value.toList, c ≠ ';' ∧ c ≠ '{' ∧ c ≠ '}' := by
      intro c hc
      rcases List.mem_append.1 hc with hc | hc
      · exact hname.ne_end hc
      · exact hplain.ne_end hc
    have hfront : ∀ c ∈ '@' :: (name.toList ++ [' ']), c ≠ '/' := by
      intro c hc
      simp only [List.mem_cons, List.mem_append, List.not_mem_nil, or_false] at hc
      rcases hc with rfl | hc | rfl
      · decide
      · exact hslash c hc
      · decide
    have hcomment : ¬ ['/', '*'] <:+: ['@'] ++ (name.toList ++ ' ' :: value.toList) := by
      have hnone := not_comment_append hfront hplain.noComment
      simpa using hnone
    exact hat.append (reads_open (Or.inl rfl) hchars hcomment)

/-- An at-rule that ends with a semicolon. -/
theorem reads_atStatement {name : String} {value : Option String} (hname : Text.IsName name)
    (hvalue : ∀ v, value = some v → Text.IsPlainValue v) (L : List (List Shape)) :
    Reads (AtLine L) (atHeader name value ++ [';'])
      (Reading (extend [.leaf (.atRule name value false)] L) none []) := by
  refine (reads_atHeader hname hvalue L).append (Reads.singleton ?_)
  intro items s hs
  exact (hs.arrive ';').closeAtRule State.lineEnding_not_mem_tail (by decide) rfl rfl rfl hname
    hvalue

/-- The line that opens the block of an at-rule. -/
theorem reads_atBlockHeader {name : String} {value : Option String} (hname : Text.IsName name)
    (hvalue : ∀ v, value = some v → Text.IsPlainValue v) (L : List (List Shape)) :
    Reads (AtLine L) (atHeader name value ++ [' ', '{'])
      (Reading ([] :: extend [.leaf (.atRule name value true)] L) none []) := by
  have hspace : Reads (Reading L (some .atRule) (atHeader name value)) [' ']
      (Reading L (some .atRule) (atHeader name value ++ [' '])) := by
    apply Reads.singleton
    intro items s hs
    exact (hs.arrive ' ').skip_open State.lineEnding_not_mem_tail (not_opens_comment (by decide))
      (Or.inl rfl) (by decide)
  have hbrace : Reads (Reading L (some .atRule) (atHeader name value ++ [' '])) ['{']
      (Reading ([] :: extend [.leaf (.atRule name value true)] L) none []) := by
    apply Reads.singleton
    intro items s hs
    exact (hs.arrive '{').openAtBlock State.lineEnding_not_mem_tail (by decide) rfl rfl rfl hname
      hvalue
  have hline := ((reads_atHeader hname hvalue L).append hspace).append hbrace
  simpa using hline

/-- The line that closes a block. -/
theorem reads_close (inner outer : List Shape) (rest : List (List Shape)) :
    Reads (AtLine (inner :: outer :: rest)) ['}']
      (Reading ((outer ++ [.block inner]) :: rest) none []) := by
  refine reads_first (by decide) ?_
  intro passes rules items s hrules _ _ hmem h
  exact h.closeBlock hrules hmem rfl rfl rfl rfl

/-! ## Pieces of a stylesheet -/

/-- The text is one or more lines at nesting level `k` that are read as the given tokens, in a
sequence inside the sequences `outer`. -/
def ReadsAs (k : Nat) (outer : List (List Shape)) (text : List Char) (shapes : List Shape) : Prop :=
  ∃ body, text = pad k ++ body ++ ['\n'] ∧
    ∀ level, Reads (AtLine (level :: outer)) body (Reading ((level ++ shapes) :: outer) none [])

/-- Several pieces in a block, from the line end before the first on. -/
theorem reads_lines {α : Type} {k : Nat} {outer : List (List Shape)} {print : α → List Char}
    {shapes : α → List Shape} (xs : List α)
    (h : ∀ x ∈ xs, ReadsAs k outer (print x) (shapes x)) :
    ∃ body, '\n' :: xs.flatMap print = body ++ ['\n'] ∧
      ∀ level, Reads (Reading (level :: outer) none []) body
        (Reading ((level ++ xs.flatMap fun x => lineEnd k :: shapes x) :: outer) none []) := by
  induction xs with
  | nil => exact ⟨[], rfl, fun level => .nil (by simp)⟩
  | cons x xs ih =>
    obtain ⟨body, hbody, hreads⟩ := ih fun y hy => h y (List.mem_cons_of_mem _ hy)
    obtain ⟨first, hfirst, hread⟩ := h x (List.mem_cons_self ..)
    refine ⟨'\n' :: pad k ++ first ++ body, ?_, ?_⟩
    · rw [List.flatMap_cons, hfirst, List.append_assoc _ body, ← hbody]
      simp
    · intro level
      have hline := ((reads_lineEnd (level :: outer) k).append (hread _)).append (hreads _)
      simpa [extend] using hline

theorem printAll_eq_flatMap (k : Nat) (nodes : List Node) :
    Node.printAll k nodes = nodes.flatMap (Node.print k) := by
  induction nodes with
  | nil => rfl
  | cons node nodes ih => rw [Node.printAll, ih, List.flatMap_cons]

theorem nestedShapes_eq_flatMap (k : Nat) (nodes : List Node) :
    Node.nestedShapes k nodes = nodes.flatMap fun node => lineEnd k :: node.shapes k := by
  induction nodes with
  | nil => rfl
  | cons node nodes ih => rw [Node.nestedShapes, ih, List.flatMap_cons]

theorem pad_succ (k : Nat) : pad (k + 1) = pad k ++ [' ', ' '] := by
  simp [pad, Nat.mul_add, List.replicate_add]

/-- A header, the lines of its block and the closing brace. -/
theorem readsAs_block {k : Nat} {outer : List (List Shape)} {header lines : List Char}
    {content : Leaf} {shapes : List Shape}
    (hheader : ∀ L, Reads (AtLine L) (header ++ [' ', '{'])
      (Reading ([] :: extend [.leaf content] L) none []))
    (hlines : ∀ level, ∃ body, '\n' :: lines = body ++ ['\n'] ∧
      Reads (Reading ([] :: (level ++ [.leaf content]) :: outer) none []) body
        (Reading (shapes :: (level ++ [.leaf content]) :: outer) none [])) :
    ReadsAs k outer (pad k ++ header ++ [' ', '{', '\n'] ++ lines ++ pad k ++ ['}', '\n'])
      [.leaf content, .block (shapes ++ [lineEnd k])] := by
  obtain ⟨body, hbody, -⟩ := hlines []
  refine ⟨header ++ [' ', '{'] ++ body ++ '\n' :: pad k ++ ['}'], ?_, ?_⟩
  · have hjoin : header ++ [' ', '{', '\n'] ++ lines = header ++ [' ', '{'] ++ body ++ ['\n'] := by
      rw [List.append_assoc _ body, ← hbody]
      simp
    rw [List.append_assoc (pad k), List.append_assoc (pad k), hjoin]
    simp
  · intro level
    -- the text of the block does not depend on what was finished before it
    obtain ⟨body', hbody', hreads⟩ := hlines level
    have hsame : body' = body := List.append_cancel_right (hbody'.symm.trans hbody)
    rw [hsame] at hreads
    have hend := reads_lineEnd (shapes :: (level ++ [.leaf content]) :: outer) k
    have hclose := reads_close (shapes ++ [lineEnd k]) (level ++ [.leaf content]) outer
    have hblock := (((hheader (level :: outer)).append hreads).append hend).append hclose
    simpa using hblock

/-- Every piece of a stylesheet is read back. -/
theorem readsAs_print {node : Node} (h : node.Plain) (k : Nat) (outer : List (List Shape)) :
    ReadsAs k outer (node.print k) (node.shapes k) := by
  induction h generalizing k outer with
  | @rule selector declarations hselector hdeclarations =>
    rw [Node.print, Node.shapes]
    refine readsAs_block (reads_ruleHeader hselector) ?_
    intro level
    have hlines : ∀ d ∈ declarations,
        ReadsAs (k + 1) ((level ++ [.leaf (.selector selector [])]) :: outer) (declaration k d)
          [.leaf (.property d.1 (some d.2))] := by
      intro d hd
      obtain ⟨hname, hvalue⟩ := hdeclarations d hd
      refine ⟨_, ?_, fun inner => reads_declaration hname hvalue⟩
      simp [declaration, pad_succ]
    obtain ⟨body, hbody, hreads⟩ := reads_lines declarations hlines
    exact ⟨body, hbody, hreads []⟩
  | @atBlock name value nodes hname hvalue _ ih =>
    rw [Node.print, Node.shapes, printAll_eq_flatMap, nestedShapes_eq_flatMap]
    refine readsAs_block (reads_atBlockHeader hname hvalue) ?_
    intro level
    obtain ⟨body, hbody, hreads⟩ := reads_lines nodes fun node hnode =>
      ih node hnode (k + 1) ((level ++ [.leaf (.atRule name value true)]) :: outer)
    exact ⟨body, hbody, hreads []⟩
  | @atStatement name value hname hvalue =>
    rw [Node.print, Node.shapes]
    refine ⟨atHeader name (some value) ++ [';'], by simp, ?_⟩
    intro level
    refine reads_atStatement hname ?_ (level :: outer)
    intro v hv
    rw [← Option.some.inj hv]
    exact hvalue

/-! ## A whole stylesheet -/

/-- The lines of a stylesheet follow each other outside all blocks. -/
theorem reads_sheet {nodes : List Node} (h : ∀ node ∈ nodes, node.Plain) (level : List Shape) :
    Reads (AtLine [level]) (Node.printAll 0 nodes)
      (AtLine [level ++ Node.sheetShapes nodes]) := by
  induction nodes generalizing level with
  | nil =>
    refine .nil ?_
    intro items s hs
    simpa [Node.sheetShapes] using hs
  | cons node nodes ih =>
    obtain ⟨body, hbody, hreads⟩ := readsAs_print (h node (List.mem_cons_self ..)) 0 []
    have hend := reads_lineEnd [level ++ node.shapes 0] 0
    have hrest := ih (fun n hn => h n (List.mem_cons_of_mem _ hn))
      (level ++ node.shapes 0 ++ [lineEnd 0])
    have hall := ((hreads level).append hend).append hrest
    rw [Node.printAll, hbody]
    simpa [pad, Node.sheetShapes, extend] using hall

theorem levels_eq_singleton {items : List Item} {s : State} {level : List Shape}
    (h : levels items s = [level]) :
    s.blocks = [] ∧ (tokensOf items).map Token.shape = level := by
  cases hblocks : s.blocks with
  | nil => simpa [levels, hblocks] using h
  | cons b blocks => simp [levels, hblocks] at h

/-- At the end of the source the last line end becomes a token. -/
theorem finish_atLine {level : List Shape} {items : List Item} {s : State}
    (h : AtLine [level] items s) :
    findingsOf (items ++ s.finish.items) = [] ∧
      (tokensOf (items ++ s.finish.items)).map Token.shape = level := by
  rcases h with hready | ⟨L', text, hL, -, hindent⟩
  · obtain ⟨hblocks, htokens⟩ := levels_eq_singleton hready.levels
    obtain ⟨p, hwindow, -⟩ := hready.window
    have hcurrent : s.current = none := by simpa using hready.kind
    have hitems : s.finish.items = [] := by
      simp [State.finish, State.finishComment, hready.comment, State.finishCurrent,
        State.closeCurrent?, hcurrent, State.finishBlocks, hblocks, State.leftover, hwindow,
        Cell.span?]
    rw [hitems, List.append_nil]
    exact ⟨hready.quiet, htokens⟩
  · have hcurrent := hindent.kind
    rw [Option.map_eq_some_iff] at hcurrent
    obtain ⟨o, hcurrent, ho⟩ := hcurrent
    cases L' with
    | nil => simp [extend] at hL
    | cons level' outer =>
      simp only [extend, List.cons.injEq] at hL
      obtain ⟨hlevel, rfl⟩ := hL
      obtain ⟨hblocks, htokens⟩ := levels_eq_singleton hindent.levels
      obtain ⟨p, hwindow, -⟩ := hindent.window
      have htext : s.window.text = text := by
        rw [hwindow, Window.text, Window.cells_ofCells, Cell.text_ofText]
      have hitems : s.finish.items = [.token ((Token.ofLeaf o.id
          (.whitespace (String.ofList text)) o.start s.next).linkedAfter s.lastTopLevel)] := by
        simp [State.finish, State.finishComment, hindent.comment, State.finishCurrent,
          State.closeCurrent?, hcurrent, ho, State.finalContent, htext, OpenToken.close, Leaf.type,
          State.accept, hblocks, State.acceptTopLevel, State.clearWindow, State.finishBlocks,
          State.leftover, Window.cells, Cell.span?]
      rw [hitems]
      refine ⟨by simpa using hindent.quiet, ?_⟩
      simp [htokens, hlevel, Token.linkedAfter, shape_withPlace, Token.ofLeaf, Token.shape]

/-- Scanning the text of a stylesheet gives its tokens and no findings. -/
theorem scanText_printAll {nodes : List Node} (h : ∀ node ∈ nodes, node.Plain) :
    findingsOf (scanText (Node.printAll 0 nodes)) = [] ∧
      (tokensOf (scanText (Node.printAll 0 nodes))).map Token.shape = Node.sheetShapes nodes := by
  have hstart : AtLine [[]] [] {} :=
    Or.inl ⟨rfl, rfl, rfl, rfl, .start, rfl, rfl⟩
  have hread := reads_sheet h [] [] {} hstart
  exact finish_atLine hread

end Scan

/-! ## The source -/

/-- A printed stylesheet does not begin with a byte-order mark. -/
theorem dropMark_printAll {nodes : List Node} (h : ∀ node ∈ nodes, node.Plain) :
    Source.dropMark (Node.printAll 0 nodes) = Node.printAll 0 nodes := by
  have hat : '@' ≠ Source.byteOrderMark := by decide
  have hfirst {c : Char} (hc : c ≠ Source.byteOrderMark) (cs : List Char) :
      Source.dropMark (c :: cs) = c :: cs := by
    rw [Source.dropMark, if_neg hc]
  cases nodes with
  | nil => rfl
  | cons node nodes =>
    cases h node (List.mem_cons_self ..) with
    | @rule selector declarations hselector _ =>
      obtain ⟨c, rest, hcons, -⟩ :=
        (Text.isBare_of_isTrimmed hselector.nonempty hselector.trimmed).first
      have hc : c ≠ Source.byteOrderMark :=
        Text.ne_of_class (hselector.allowed c (by simp [hcons])).1 (by decide +kernel)
      simp [Node.printAll, Node.print, pad, hcons, hfirst hc]
    | @atBlock name value _ _ _ _ =>
      cases value <;> simp [Node.printAll, Node.print, pad, atHeader, hfirst hat]
    | atStatement _ _ => simp [Node.printAll, Node.print, pad, atHeader, hfirst hat]

/-- Printing a stylesheet and tokenizing the text gives back the stylesheet: no findings, the
headers with their blocks, the declarations with their names and values, and one token of
indentation for every line end. -/
theorem Source.tokenize_printAll {nodes : List Node} (h : ∀ node ∈ nodes, node.Plain) :
    (ofString (String.ofList (Node.printAll 0 nodes))).tokenize.failure = none ∧
    findingsOf (ofString (String.ofList (Node.printAll 0 nodes))).tokenize.items = [] ∧
    (tokensOf (ofString (String.ofList (Node.printAll 0 nodes))).tokenize.items).map Token.shape =
      Node.sheetShapes nodes := by
  have hcharacters : (ofString (String.ofList (Node.printAll 0 nodes))).characters =
      { items := Node.printAll 0 nodes } := by
    rw [characters_ofString, String.toList_ofList, dropMark_printAll h]
  have hitems : (ofString (String.ofList (Node.printAll 0 nodes))).tokenize.items =
      Scan.scanText (ofString (String.ofList (Node.printAll 0 nodes))).characters.items :=
    items_tokenize (by rw [hcharacters])
  rw [hitems, hcharacters]
  refine ⟨?_, Scan.scanText_printAll h⟩
  simp [tokenize, outputs, hcharacters]

/-- A rule in an at-rule. Its selector starts like a declaration. -/
theorem Source.tokenize_printAll_hover :
    (∀ node ∈ [Node.atBlock "media" (some "screen") [.rule "a:hover" [("color", "red")]]],
      node.Plain) ∧
    (tokensOf (ofString (String.ofList (Node.printAll 0
      [.atBlock "media" (some "screen") [.rule "a:hover" [("color", "red")]]]))).tokenize.items).map
        Token.shape =
      [.leaf (.atRule "media" (some "screen") true),
        .block [lineEnd 1, .leaf (.selector "a:hover" []),
          .block [lineEnd 2, .leaf (.property "color" (some "red")), lineEnd 1], lineEnd 0],
        lineEnd 0] := by
  have hrule : Node.Plain (.rule "a:hover" [("color", "red")]) := by
    refine .rule (by decide +kernel) ?_
    intro d hd
    obtain rfl := List.mem_singleton.1 hd
    exact ⟨by decide +kernel, by decide +kernel⟩
  have h : ∀ node ∈ [Node.atBlock "media" (some "screen") [.rule "a:hover" [("color", "red")]]],
      node.Plain := by
    intro node hnode
    obtain rfl := List.mem_singleton.1 hnode
    refine .atBlock (by decide +kernel) ?_ ?_
    · rintro value ⟨rfl⟩
      show Text.IsPlainValue "screen"
      decide +kernel
    · intro node hnode
      obtain rfl := List.mem_singleton.1 hnode
      exact hrule
  exact ⟨h, (tokenize_printAll h).2.2⟩

end Stylesheet
