import Stylesheet.Proofs.Matching
import Stylesheet.Proofs.Scan.Blanks

set_option autoImplicit false

/-! # Indentation and runs of blanks

A longest run of blanks is indentation if it begins where nothing is open and nothing is pending,
and holds a line feed or begins the source (`BlankRun.Leads`). The whitespace tokens of a source are
these runs, one token for each (`Source.indentation_of_runs`). A token says what its run says from
the first line break on. When reading fails, the tokens that come out are those of the runs whose
end has been seen and that stand in no block still open. -/

namespace Stylesheet

/-- A longest run of blanks of a text, and what stands before and behind it. -/
@[ext] structure BlankRun (cs : List Char) where
  front : List Char
  blanks : List Char
  back : List Char
  eq_append : cs = front ++ (blanks ++ back)
  ne_nil : blanks ≠ []
  allBlank : Text.allBlank blanks = true
  not_before : ∀ c ∈ front.getLast?, Text.isBlank c = false
  not_behind : ∀ c ∈ back.head?, Text.isBlank c = false

namespace BlankRun

variable {cs : List Char}

/-- The run begins while no token and no comment is open and nothing is pending, and it holds a line
feed or begins the source. -/
structure Leads (r : BlankRun cs) : Prop where
  vacant : (Scan.State.after {} r.front).Vacant
  breaks : r.front = [] ∨ '\n' ∈ r.blanks

/-- The run from its first line break on, or all of it at the beginning of the source. -/
def text (r : BlankRun cs) : List Char := (Scan.splitBlanks r.front r.blanks).2

/-- The position of the first line break, or the beginning of the source. -/
def start (r : BlankRun cs) : Position :=
  Position.start.advanceAll (r.front ++ (Scan.splitBlanks r.front r.blanks).1)

def stop (r : BlankRun cs) : Position := Position.start.advanceAll (r.front ++ r.blanks)

theorem text_ne_nil_iff (r : BlankRun cs) : r.text ≠ [] ↔ r.front = [] ∨ '\n' ∈ r.blanks := by
  rw [text, ne_eq, Scan.splitBlanks_snd_eq_nil_iff]
  by_cases hfront : r.front = []
  · simp [hfront, r.ne_nil]
  · simp [hfront]

/-- The run, after which the text goes on. -/
def append (r : BlankRun cs) (h : r.back ≠ []) (more : List Char) : BlankRun (cs ++ more) where
  front := r.front
  blanks := r.blanks
  back := r.back ++ more
  eq_append := by simp [r.eq_append]
  ne_nil := r.ne_nil
  allBlank := r.allBlank
  not_before := r.not_before
  not_behind c hc := by
    obtain ⟨d, rest, hd⟩ := List.exists_cons_of_ne_nil h
    refine r.not_behind c ?_
    rw [hd] at hc ⊢
    exact hc

theorem front_eq_of_append {r r' : BlankRun cs} {more : List Char}
    (hfront : r'.front = r.front ++ more) (hblanks : r.blanks = more ++ r'.blanks) :
    r.front = r'.front := by
  cases hlast : more.getLast? with
  | none =>
    obtain rfl := List.getLast?_eq_none_iff.1 hlast
    rw [hfront, List.append_nil]
  | some c =>
    -- the last of what is more would be blank in the one run and visible before the other
    have hvisible := r'.not_before c (by rw [hfront, List.getLast?_append, hlast]; rfl)
    have hmem : c ∈ r.blanks := by
      rw [hblanks]
      exact List.mem_append_left _ (List.mem_of_getLast? hlast)
    have hblank := List.all_eq_true.1 r.allBlank c hmem
    simp [hvisible] at hblank

/-- A run is determined by its end. -/
theorem eq_of_stop_eq {r r' : BlankRun cs} (h : r.stop = r'.stop) : r = r' := by
  have hbegin (r : BlankRun cs) : r.front ++ r.blanks <+: cs :=
    ⟨r.back, by rw [List.append_assoc, ← r.eq_append]⟩
  have hends : r.front ++ r.blanks = r'.front ++ r'.blanks :=
    Position.eq_of_advanceAll_eq (hbegin r) (hbegin r') h
  have hfront : r.front = r'.front := by
    rcases List.append_eq_append_iff.1 hends with ⟨more, hfront, hblanks⟩ | ⟨more, hfront, hblanks⟩
    · exact front_eq_of_append hfront hblanks
    · exact (front_eq_of_append hfront hblanks).symm
  have hblanks : r.blanks = r'.blanks := by
    rw [hfront] at hends
    exact List.append_cancel_left hends
  have hback : r.back = r'.back := by
    have htext := r.eq_append.symm.trans r'.eq_append
    rw [hfront, hblanks] at htext
    exact List.append_cancel_left (List.append_cancel_left htext)
  exact BlankRun.ext hfront hblanks hback

end BlankRun

/-- The token is the indentation that the run is. -/
def Token.Covers {cs : List Char} (t : Token) (r : BlankRun cs) : Prop :=
  ∃ place, t = .leaf place (.whitespace (String.ofList r.text)) ∧ place.start = r.start ∧
    place.stop = r.stop

theorem Token.Covers.stop_eq {cs : List Char} {t : Token} {r : BlankRun cs} (h : t.Covers r) :
    t.stop = r.stop := by
  obtain ⟨place, rfl, -, hstop⟩ := h
  exact hstop

namespace Scan

section Runs

variable {cs : List Char} {t : Token}

/-- Indentation that ends is a run. -/
theorem exists_run_of_indents {before back : List Char} (hcs : cs = before ++ back)
    (hback : ∀ c ∈ back.head?, Text.isBlank c = false)
    (ht : (State.after {} before).Indents (State.after {} before).window.text
      (State.after {} before).next t) :
    ∃ r : BlankRun cs, r.back = back ∧ r.Leads ∧ t.Covers r := by
  have hs := State.settled_after before
  have hblanks : (State.after {} before).HoldsBlanks := by
    obtain ⟨hk, o, ho, hkind, -⟩ := ht
    refine ⟨hk, ?_, ?_⟩
    · intro o' ho'
      rw [← Option.some.inj (ho.symm.trans ho')]
      exact hkind
    · exact ((OpenToken.begins_whitespace_iff hkind).1 (hs.coherent.current hk o ho)).1
  obtain ⟨front, blanks, rfl, hvacant, hall⟩ := hblanks.exists_vacant
  obtain ⟨hne, place, rfl, hstart, hstop⟩ := (hvacant.reads hall).exists_place ht
  have hnil : blanks ≠ [] := by
    rintro rfl
    rw [ne_eq, splitBlanks_snd_eq_nil_iff] at hne
    split at hne <;> simp at hne
  let r : BlankRun cs :=
    ⟨front, blanks, back, by rw [hcs, List.append_assoc], hnil, hall,
      fun c hc => hvacant.isBlank_eq_false hc, hback⟩
  exact ⟨r, rfl, ⟨hvacant, r.text_ne_nil_iff.1 hne⟩, place, rfl, hstart, hstop⟩

/-- A run that is indentation becomes a token where it ends. -/
theorem exists_indents_of_run (r : BlankRun cs) (h : r.Leads) :
    ∃ t, (State.after {} (r.front ++ r.blanks)).Indents
        (State.after {} (r.front ++ r.blanks)).window.text
        (State.after {} (r.front ++ r.blanks)).next t ∧ t.Covers r := by
  have hreads := h.vacant.reads r.allBlank
  obtain ⟨t, ht⟩ := hreads.exists_indents (r.text_ne_nil_iff.2 h.breaks)
  exact ⟨t, ht, (hreads.exists_place ht).2⟩

theorem type_of_indents {s : State} {text : List Char} {stop : Position}
    (h : s.Indents text stop t) : t.type = .whitespace := by
  obtain ⟨-, o, -, -, rfl⟩ := h
  rw [State.type_linked]
  rfl

/-- Indentation that has been finished is a run, after which the text goes on. -/
theorem exists_run_of_finished (htype : t.type = .whitespace)
    (ht : t ∈ finished (State.itemsOf {} cs) (State.after {} cs).blocks) :
    ∃ r : BlankRun cs, r.back ≠ [] ∧ r.Leads ∧ t.Covers r := by
  induction cs using List.reverseRecOn with
  | nil => simp at ht
  | append_singleton cs c ih =>
    rcases (State.mem_finished_concat htype cs c).1 ht with ht | ⟨hc, ht⟩
    · obtain ⟨r, hback, hleads, hcovers⟩ := ih ht
      exact ⟨r.append hback [c], by simp [BlankRun.append], ⟨hleads.vacant, hleads.breaks⟩, hcovers⟩
    · have hvisible : ∀ d ∈ [c].head?, Text.isBlank d = false := by simpa using hc
      obtain ⟨r, hback, hleads, hcovers⟩ := exists_run_of_indents rfl hvisible ht
      exact ⟨r, by simp [hback], hleads, hcovers⟩

/-- A run that is indentation has been finished when the text goes on after it. -/
theorem exists_finished_of_run (r : BlankRun cs) (h : r.Leads) (hback : r.back ≠ []) :
    ∃ t ∈ finished (State.itemsOf {} cs) (State.after {} cs).blocks, t.Covers r := by
  obtain ⟨t, ht, hcovers⟩ := exists_indents_of_run r h
  obtain ⟨c, rest, hc⟩ := List.exists_cons_of_ne_nil hback
  have hvisible : Text.isBlank c = false := r.not_behind c (by simp [hc])
  have hmem := (State.mem_finished_concat (type_of_indents ht) (r.front ++ r.blanks) c).2
    (Or.inr ⟨hvisible, ht⟩)
  have hcs : cs = r.front ++ r.blanks ++ [c] ++ rest := by
    have hcs := r.eq_append
    rw [hc] at hcs
    simpa using hcs
  refine ⟨t, ?_, hcovers⟩
  rw [hcs]
  exact State.finished_subset _ rest hmem

/-- In a text that has been scanned to its end the indentation is all runs. -/
theorem exists_run_of_scanText (htype : t.type = .whitespace) (ht : t ∈ finished (scanText cs) []) :
    ∃ r : BlankRun cs, r.Leads ∧ t.Covers r := by
  rcases (State.mem_finished_scanText htype cs).1 ht with ht | ht
  · obtain ⟨r, -, hrun⟩ := exists_run_of_finished htype ht
    exact ⟨r, hrun⟩
  · obtain ⟨r, -, hrun⟩ := exists_run_of_indents (List.append_nil cs).symm (by simp) ht
    exact ⟨r, hrun⟩

theorem exists_scanText_of_run (r : BlankRun cs) (h : r.Leads) :
    ∃ t ∈ finished (scanText cs) [], t.Covers r := by
  by_cases hback : r.back = []
  · obtain ⟨t, ht, hcovers⟩ := exists_indents_of_run r h
    have hcs := r.eq_append
    rw [hback, List.append_nil] at hcs
    rw [← hcs] at ht
    exact ⟨t, (State.mem_finished_scanText (type_of_indents ht) cs).2 (Or.inr ht), hcovers⟩
  · obtain ⟨t, ht, hcovers⟩ := exists_finished_of_run r h hback
    have htype : t.type = .whitespace := by
      obtain ⟨place, rfl, -⟩ := hcovers
      rfl
    exact ⟨t, (State.mem_finished_scanText htype cs).2 (Or.inl ht), hcovers⟩

end Runs

/-! ## Tokens that stay in open blocks -/

section Nested

variable {items : List Item} {blocks : List OpenBlock} {t : Token}

/-- The finished tokens that stand in no open block are those before all open blocks. -/
theorem Nested.mem_tokensOf_iff (h : Nested items blocks) (ht : t ∈ finished items blocks) :
    t ∈ (tokensOf items).flatMap Token.preorder ↔ ∀ b ∈ blocks, t.stop ≤ b.start := by
  induction blocks with
  | nil => simpa using ht
  | cons b blocks ih =>
    obtain ⟨houter, hbefore, -, hchildren⟩ := h
    obtain ⟨-, hsound⟩ := houter.outermost
    rw [List.forall_mem_cons]
    rcases mem_finished_cons.1 ht with ht | ht
    · rw [← ih houter ht, iff_and_self]
      intro hmem
      obtain ⟨u, hu, ht⟩ := List.mem_flatMap.1 hmem
      exact le_trans (Token.within u (hsound u hu).1 ht).2 (hbefore.1 u hu)
    · -- what stands in the block begins after its brace
      obtain ⟨u, hu, ht⟩ := List.mem_flatMap.1 ht
      obtain ⟨husound, hstart⟩ := hchildren u hu
      have hlt : b.start < t.stop :=
        lt_trans (lt_of_lt_of_le hstart (Token.within u husound ht).1)
          (husound t ht).start_lt_stop
      constructor
      · intro hmem
        obtain ⟨v, hv, ht⟩ := List.mem_flatMap.1 hmem
        exact absurd hlt
          (not_lt.2 (le_trans (Token.within v (hsound v hv).1 ht).2 (hbefore.1 v hv)))
      · rintro ⟨hle, -⟩
        exact absurd hlt (not_lt.2 hle)

end Nested

end Scan

namespace Source

open Scan

/-- The tokens of the run come out: the source can be read to its end, or at least past the run and
past every block that the run stands in. -/
def Emits (source : Source) (r : BlankRun source.characters.items) : Prop :=
  source.characters.failure = none ∨ r.back ≠ [] ∧
    ∀ b ∈ (State.after {} source.characters.items).blocks, r.stop ≤ b.start

theorem exists_run (source : Source) {t : Token} (ht : t ∈ source.tokens)
    (htype : t.type = .whitespace) :
    ∃ r : BlankRun source.characters.items, r.Leads ∧ source.Emits r ∧ t.Covers r := by
  cases hfailure : source.characters.failure with
  | none =>
    rw [tokens, items_tokenize hfailure, ← finished_nil] at ht
    obtain ⟨r, hleads, hcovers⟩ := exists_run_of_scanText htype ht
    exact ⟨r, hleads, Or.inl hfailure, hcovers⟩
  | some failure =>
    rw [tokens, items_tokenize_of_failure hfailure] at ht
    have hfinished : t ∈ finished (State.itemsOf {} source.characters.items)
        (State.after {} source.characters.items).blocks := by
      rw [finished, List.flatMap_append]
      exact List.mem_append_left _ ht
    obtain ⟨r, hback, hleads, hcovers⟩ := exists_run_of_finished htype hfinished
    have hnested := (State.grown_after source.characters.items).nested
    refine ⟨r, hleads, Or.inr ⟨hback, ?_⟩, hcovers⟩
    rw [← hcovers.stop_eq]
    exact (hnested.mem_tokensOf_iff hfinished).1 ht

theorem exists_token (source : Source) (r : BlankRun source.characters.items) (h : r.Leads)
    (hemits : source.Emits r) : ∃ t ∈ source.tokens, t.Covers r := by
  cases hfailure : source.characters.failure with
  | none =>
    rw [tokens, items_tokenize hfailure, ← finished_nil]
    exact exists_scanText_of_run r h
  | some failure =>
    rw [tokens, items_tokenize_of_failure hfailure]
    obtain ⟨hback, hblocks⟩ := hemits.resolve_left (by simp [hfailure])
    obtain ⟨t, ht, hcovers⟩ := exists_finished_of_run r h hback
    have hnested := (State.grown_after source.characters.items).nested
    refine ⟨t, (hnested.mem_tokensOf_iff ht).2 ?_, hcovers⟩
    rw [hcovers.stop_eq]
    exact hblocks

/-- No two tokens are the same indentation. -/
theorem eq_of_covers (source : Source) {r : BlankRun source.characters.items} {t u : Token}
    (ht : t ∈ source.tokens) (hu : u ∈ source.tokens) (htr : t.Covers r) (hur : u.Covers r) :
    t = u := by
  have hformed := source.wellFormed_tokenize.1
  have hlt := (hformed.placed u hu).start_lt_stop
  obtain ⟨place, rfl, hstart, hstop⟩ := htr
  obtain ⟨place', rfl, hstart', hstop'⟩ := hur
  rw [tokens, ← Token.preorderAll_eq_flatMap] at ht hu
  have hmem := Token.mem_preorder_of_withinAll _ (fun t ht => hformed.sound ht)
    hformed.siblings.ordered ht hu (le_of_eq (hstart.trans hstart'.symm))
    (lt_of_lt_of_eq hlt (hstop'.trans hstop.symm))
  exact (List.mem_singleton.1 hmem).symm

/-- The whitespace tokens of a source are its runs of blanks that are indentation: each of the
tokens is one run, and each such run is one token. -/
theorem indentation_of_runs (source : Source) :
    (∀ t ∈ source.tokens, t.type = .whitespace →
      ∃! r : BlankRun source.characters.items, r.Leads ∧ source.Emits r ∧ t.Covers r) ∧
    ∀ r : BlankRun source.characters.items, r.Leads → source.Emits r →
      ∃! t, t ∈ source.tokens ∧ t.Covers r := by
  refine ⟨?_, ?_⟩
  · intro t ht htype
    obtain ⟨r, hleads, hemits, hcovers⟩ := source.exists_run ht htype
    refine ⟨r, ⟨hleads, hemits, hcovers⟩, ?_⟩
    rintro r' ⟨-, -, hcovers'⟩
    exact BlankRun.eq_of_stop_eq (hcovers'.stop_eq.symm.trans hcovers.stop_eq)
  · intro r hleads hemits
    obtain ⟨t, ht, hcovers⟩ := source.exists_token r hleads hemits
    refine ⟨t, ⟨ht, hcovers⟩, ?_⟩
    rintro u ⟨hu, hcovers'⟩
    exact source.eq_of_covers hu ht hcovers' hcovers

/-- A run after an at-rule, whose blanks before the line break are left out. -/
theorem indentation_of_runs_atRule :
    let source := ofString "@a; \r\n\tb"
    source.characters = { items := "@a; \r\n\tb".toList } ∧
    ∃ r : BlankRun source.characters.items, r.Leads ∧ source.Emits r ∧
      r.start = ⟨1, 5⟩ ∧ r.text = ['\r', '\n', '\t'] ∧ r.stop = ⟨2, 2⟩ ∧
      (∃! t, t ∈ source.tokens ∧ t.Covers r) ∧
      ∃ t ∈ source.tokens, t.type = .whitespace ∧
        ∃! r : BlankRun source.characters.items, r.Leads ∧ source.Emits r ∧ t.Covers r := by
  intro source
  have hcharacters : source.characters = { items := "@a; \r\n\tb".toList } := by
    rw [characters_ofString]
    decide +kernel
  obtain ⟨hruns, htokens⟩ := indentation_of_runs source
  have hlast : "@a;".toList.getLast? = some ';' := by decide
  have hhead : "b".toList.head? = some 'b' := by decide
  let r : BlankRun source.characters.items :=
    ⟨"@a;".toList, " \r\n\t".toList, "b".toList, by rw [hcharacters]; decide, by decide, by decide,
      by rw [hlast]; rintro c ⟨rfl⟩; decide, by rw [hhead]; rintro c ⟨rfl⟩; decide⟩
  have hvacant : (State.after {} "@a;".toList).Vacant := by constructor <;> decide +kernel
  have hfeed : '\n' ∈ " \r\n\t".toList := by decide
  have hsplit : splitBlanks "@a;".toList " \r\n\t".toList = ([' '], ['\r', '\n', '\t']) := by
    decide
  have hstart : Position.start.advanceAll
      ("@a;".toList ++ (splitBlanks "@a;".toList " \r\n\t".toList).1) = ⟨1, 5⟩ := by
    decide
  have hstop : Position.start.advanceAll ("@a;".toList ++ " \r\n\t".toList) = ⟨2, 2⟩ := by decide
  have hleads : r.Leads := ⟨hvacant, Or.inr hfeed⟩
  have hemits : source.Emits r := Or.inl (by rw [hcharacters])
  obtain ⟨t, ⟨ht, place, htoken, hplace⟩, hunique⟩ := htokens r hleads hemits
  have htype : t.type = .whitespace := by
    rw [htoken]
    rfl
  exact ⟨hcharacters, r, hleads, hemits, hstart, congrArg Prod.snd hsplit, hstop,
    ⟨t, ⟨ht, place, htoken, hplace⟩, hunique⟩, t, ht, htype, hruns t ht htype⟩

end Source

end Stylesheet
