import Stylesheet.Proofs.Breaks.Text
import Stylesheet.Proofs.Source

set_option autoImplicit false

/-! # Sources with line breaks of two characters

`Source.crlf` puts a carriage return in front of every line feed among the bytes of a source. Line
feeds belong to no other character, whether the bytes are UTF-8 or not, so decoding this source
gives the characters of the source in the other spelling (`Source.characters_crlf`), and a failure
to read it stays where it was. -/

namespace Stylesheet

namespace Utf8

/-- A byte as written in a source with line breaks of two characters. -/
def crlfByte (b : UInt8) : List UInt8 := if b = 0x0A then [0x0D, 0x0A] else [b]

/-- A symbol as written in a text with line breaks of two characters. -/
def crlfSymbol : Symbol → List Symbol
  | none => [none]
  | some c => (Text.crlfChar c).map some

theorem flatMap_crlfByte_eq_self {bytes : List UInt8} (h : 0x0A ∉ bytes) :
    bytes.flatMap crlfByte = bytes := by
  induction bytes with
  | nil => rfl
  | cons b bytes ih =>
    simp only [List.mem_cons, not_or] at h
    rw [List.flatMap_cons, crlfByte, if_neg (Ne.symm h.1), ih h.2, List.singleton_append]

theorem flatMap_crlfByte_ne_nil (b : UInt8) (bytes : List UInt8) :
    (b :: bytes).flatMap crlfByte ≠ [] := by
  rw [List.flatMap_cons, crlfByte]
  split <;> simp

theorem not_mem_of_begins {a : UInt8} {more : List UInt8} (h : Begins (a :: more)) :
    0x0A ∉ more := by
  intro hmem
  have htail := isTail_of_begins h hmem
  revert htail
  decide

/-- Only a line feed stands for a line feed. -/
theorem Encodes.not_mem {bytes : List UInt8} {c : Char} (h : Encodes bytes c) (hc : c ≠ '\n') :
    0x0A ∉ bytes := by
  intro hmem
  cases bytes with
  | nil => simp at hmem
  | cons a more =>
    rcases List.mem_cons.1 hmem with rfl | hmem
    · have hwidth : width 0x0A = 1 := by decide
      cases h with
      | one => exact hc rfl
      | _ => simp_all
    · exact not_mem_of_begins h.begins hmem

/-- The first symbol does not depend on the spelling of the breaks after it, and holds none. -/
theorem First.crlf {a : UInt8} {rest : List UInt8} {found : Option (Symbol × Nat)}
    (h : First a rest found) :
    First a (rest.flatMap crlfByte) found ∧
      ∀ symbol more, found = some (symbol, more) →
        (rest.flatMap crlfByte).drop more = (rest.drop more).flatMap crlfByte := by
  cases h with
  | char more hc rest =>
    rw [List.flatMap_append, flatMap_crlfByte_eq_self (not_mem_of_begins hc.begins)]
    refine ⟨.char more hc _, ?_⟩
    rintro _ _ ⟨⟩
    rw [List.drop_left, List.drop_left]
  | stray h rest =>
    refine ⟨.stray h _, ?_⟩
    rintro _ _ ⟨⟩
    rfl
  | broken more hcut hnext rest =>
    rename_i next
    rw [List.flatMap_append, flatMap_crlfByte_eq_self (not_mem_of_begins hcut.begins)]
    refine ⟨?_, ?_⟩
    · rw [List.flatMap_cons, crlfByte]
      split
      · -- the carriage return does not continue the character either
        refine .broken more hcut (fun hbegins => ?_) _
        have htail := isTail_of_begins hbegins (b := 0x0D) (by simp)
        revert htail
        decide
      · exact .broken more hcut hnext _
    · rintro _ _ ⟨⟩
      rw [List.drop_left, List.drop_left]
  | incomplete hcut =>
    rw [flatMap_crlfByte_eq_self (not_mem_of_begins hcut.begins)]
    exact ⟨.incomplete hcut, nofun⟩

theorem First.cut {a : UInt8} {rest : List UInt8} (h : First a rest none) : Cut (a :: rest) := by
  cases h with
  | incomplete hcut => exact hcut

theorem First.crlfSymbol_eq {a : UInt8} {rest : List UInt8} {symbol : Symbol} {more : Nat}
    (h : First a rest (some (symbol, more))) (ha : a ≠ 0x0A) : crlfSymbol symbol = [symbol] := by
  cases h with
  | char more hc rest =>
    rename_i c
    have hne : c ≠ '\n' := by
      rintro rfl
      exact ha (List.cons.inj (encodes_iff.1 hc)).1.symm
    rw [crlfSymbol, Text.crlfChar, if_neg hne]
    rfl
  | stray => rfl
  | broken => rfl

/-- Decoding keeps to the spelling of the breaks. -/
theorem decode_crlf (bytes : List UInt8) :
    decode (bytes.flatMap crlfByte) = ((decode bytes).1.flatMap crlfSymbol, (decode bytes).2) := by
  induction h : bytes.length using Nat.strongRecOn generalizing bytes with
  | ind n ih =>
    subst h
    cases bytes with
    | nil => rfl
    | cons a rest =>
      by_cases ha : a = 0x0A
      · subst ha
        have hdecode (b : UInt8) (hb : width b = 1) (tail : List UInt8) : decode (b :: tail) =
            (some (Char.ofNat b.toNat) :: (decode tail).1, (decode tail).2) := by
          have hfirst : First b tail _ := .char [] (.one b hb) tail
          rw [decode_cons, hfirst.firstSymbol_eq]
          rfl
        have hrest := ih rest.length (by simp) rest rfl
        rw [List.flatMap_cons, crlfByte, if_pos rfl]
        show decode (0x0D :: 0x0A :: rest.flatMap crlfByte) = _
        rw [hdecode _ (by decide), hdecode _ (by decide), hdecode _ (by decide), hrest]
        rfl
      · obtain ⟨hfirst, hdrop⟩ := (first_firstSymbol a rest).crlf
        rw [List.flatMap_cons, crlfByte, if_neg ha, List.singleton_append, decode_cons,
          hfirst.firstSymbol_eq, decode_cons]
        cases hfound : firstSymbol a rest with
        | none =>
          have hcut := (hfound ▸ first_firstSymbol a rest).cut
          rw [flatMap_crlfByte_eq_self (not_mem_of_begins hcut.begins)]
          rfl
        | some found =>
          obtain ⟨symbol, more⟩ := found
          have hshorter : (rest.drop more).length < (a :: rest).length := by
            rw [List.length_drop, List.length_cons]
            omega
          have hrest := ih (rest.drop more).length hshorter (rest.drop more) rfl
          have hsymbol := (hfound ▸ first_firstSymbol a rest).crlfSymbol_eq ha
          simp only [hdrop symbol more hfound, hrest, List.flatMap_cons, hsymbol,
            List.singleton_append]

end Utf8

namespace Source

/-- What a read delivers of a source with line breaks of two characters. -/
def crlfRead : Read → Read
  | .bytes chunk => .bytes (chunk.flatMap Utf8.crlfByte)
  | read => read

/-- The source with a carriage return in front of every line feed. -/
def crlf (source : Source) : Source := source.map crlfRead

theorem map_crlfSymbol (symbols : List Utf8.Symbol) :
    (symbols.flatMap Utf8.crlfSymbol).map charOfSymbol = Text.crlf (symbols.map charOfSymbol) := by
  induction symbols with
  | nil => rfl
  | cons symbol symbols ih =>
    rw [List.flatMap_cons, List.map_append, ih, List.map_cons, Text.crlf_cons]
    cases symbol with
    | none => rfl
    | some c =>
      rw [Utf8.crlfSymbol, List.map_map]
      exact congrArg (· ++ _) (List.map_id _)

/-- The bytes of an unfinished character hold no line feed. -/
theorem flatMap_crlfByte_carry {carry : List UInt8} (h : Utf8.decode carry = ([], carry)) :
    carry.flatMap Utf8.crlfByte = carry := by
  cases carry with
  | nil => rfl
  | cons a rest =>
    have hfirst := Utf8.first_firstSymbol a rest
    rw [Utf8.decode_cons] at h
    cases hfound : Utf8.firstSymbol a rest with
    | some found => simp [hfound] at h
    | none =>
      have hcut := (hfound ▸ hfirst).cut
      refine Utf8.flatMap_crlfByte_eq_self fun hmem => ?_
      rcases List.mem_cons.1 hmem with rfl | hmem
      · have hwidth : Utf8.width 0x0A = 1 := by decide
        cases hcut <;> omega
      · exact Utf8.not_mem_of_begins hcut.begins hmem

theorem decodeOnto_crlf (source : Source) {chars chars' : Array Char}
    (hchars : chars'.toList = Text.crlf chars.toList) {carry : List UInt8}
    (hcarry : Utf8.decode carry = ([], carry)) :
    (decodeOnto chars' carry source.crlf).1.toList =
        Text.crlf (decodeOnto chars carry source).1.toList ∧
      (decodeOnto chars' carry source.crlf).2 = (decodeOnto chars carry source).2 := by
  have hend {chars chars' : Array Char} (hchars : chars'.toList = Text.crlf chars.toList)
      (carry : List UInt8) :
      (if carry.isEmpty then chars' else chars'.push Utf8.replacement).toList =
        Text.crlf (if carry.isEmpty then chars else chars.push Utf8.replacement).toList := by
    split
    · exact hchars
    · rw [Array.toList_push, Array.toList_push, Text.crlf_concat_of_ne _ (by decide), hchars]
  induction source generalizing chars chars' carry with
  | nil => exact ⟨hend hchars carry, rfl⟩
  | cons read reads ih =>
    cases read with
    | interrupted => exact ih hchars hcarry
    | failed message => exact ⟨hchars, rfl⟩
    | bytes chunk =>
      cases chunk with
      | nil => exact ⟨hend hchars carry, rfl⟩
      | cons b chunk =>
        obtain ⟨b', chunk', hchunk⟩ :=
          List.exists_cons_of_ne_nil (Utf8.flatMap_crlfByte_ne_nil b chunk)
        have hbytes : carry ++ b' :: chunk' = (carry ++ b :: chunk).flatMap Utf8.crlfByte := by
          rw [List.flatMap_append, flatMap_crlfByte_carry hcarry, hchunk]
        have hread : crlf (.bytes (b :: chunk) :: reads) = .bytes (b' :: chunk') :: crlf reads := by
          rw [crlf, List.map_cons, crlfRead, hchunk, crlf]
        rw [hread, decodeOnto, decodeOnto, hbytes, Utf8.decode_crlf]
        refine ih ?_ (Utf8.decode_rest _)
        rw [Array.toList_appendList, Array.toList_appendList, hchars, map_crlfSymbol,
          Text.crlf_append]
        rfl

theorem dropMark_crlf (cs : List Char) : dropMark (Text.crlf cs) = Text.crlf (dropMark cs) := by
  cases cs with
  | nil => rfl
  | cons c cs =>
    by_cases hc : c = '\n'
    · rw [hc]
      rfl
    · rw [Text.crlf_cons_of_ne hc, dropMark, dropMark]
      split
      · rfl
      · rw [Text.crlf_cons_of_ne hc]

/-- The characters of the source with line breaks of two characters. -/
theorem characters_crlf (source : Source) :
    source.crlf.characters =
      { items := Text.crlf source.characters.items, failure := source.characters.failure } := by
  obtain ⟨hchars, hfailure⟩ :=
    decodeOnto_crlf source (show (#[] : Array Char).toList = Text.crlf #[].toList from rfl)
      Utf8.decode_nil
  simp only [characters, hchars, hfailure, dropMark_crlf]

/-- For a text this is the text in the other spelling. -/
theorem crlf_ofString (text : String) : (ofString text).crlf = ofString (Text.withCrlf text) := by
  have hchar (c : Char) : (String.utf8EncodeChar c).flatMap Utf8.crlfByte =
      (Text.crlfChar c).flatMap String.utf8EncodeChar := by
    by_cases hc : c = '\n'
    · rw [hc]
      decide
    · have hnot := (Utf8.encodes_utf8EncodeChar c).not_mem hc
      rw [Text.crlfChar, if_neg hc, List.flatMap_singleton, Utf8.flatMap_crlfByte_eq_self hnot]
  rw [ofString, ofString, toList_toUTF8, toList_toUTF8, Text.toList_withCrlf, Text.crlf,
    List.flatMap_assoc]
  simp only [← hchar]
  rw [← List.flatMap_assoc]
  rfl

end Source

end Stylesheet
