import Stylesheet.Lint
import Stylesheet.Proofs.Utf8

set_option autoImplicit false

/-! # Sources that deliver the same bytes

A reader may cut the bytes of a source anywhere, also inside a character, and may be interrupted as
often as it likes. The characters of the source are those of all its bytes together, so everything
that is made of them depends on the bytes alone. -/

namespace Stylesheet

/-- The reads hand over the bytes in pieces that are not empty, with interruptions anywhere, and end
by reading nothing. -/
inductive Delivers : List UInt8 → Source → Prop
  | done : Delivers [] []
  | closed (reads : Source) : Delivers [] (.bytes [] :: reads)
  | interrupted {bytes : List UInt8} {reads : Source} (h : Delivers bytes reads) :
      Delivers bytes (.interrupted :: reads)
  | chunk (b : UInt8) (chunk : List UInt8) {bytes : List UInt8} {reads : Source}
      (h : Delivers bytes reads) : Delivers (b :: chunk ++ bytes) (.bytes (b :: chunk) :: reads)

namespace Source

/-- When nothing more is read, an unfinished character becomes a replacement. -/
theorem push_replacement {carry : List UInt8} (hcarry : Utf8.decode carry = ([], carry))
    (chars : Array Char) :
    (if carry.isEmpty then chars else chars.push Utf8.replacement) =
      chars ++ Utf8.lossy carry := by
  rw [Utf8.lossy, hcarry]
  split <;> simp

/-- At every point of the reading, the characters so far are followed by what the unfinished
character carried over and the bytes still to come stand for together. -/
theorem decodeOnto_of_delivers {bytes : List UInt8} {reads : Source} (h : Delivers bytes reads)
    (chars : Array Char) {carry : List UInt8} (hcarry : Utf8.decode carry = ([], carry)) :
    decodeOnto chars carry reads = (chars ++ Utf8.lossy (carry ++ bytes), none) := by
  induction h generalizing chars carry with
  | done => rw [decodeOnto, push_replacement hcarry, List.append_nil]
  | closed reads => rw [decodeOnto, push_replacement hcarry, List.append_nil]
  | interrupted _ ih => rw [decodeOnto, ih chars hcarry]
  | @chunk b chunk bytes reads _ ih =>
    have hrest := Utf8.decode_rest (carry ++ b :: chunk)
    have hsplit := Utf8.lossy_append (carry ++ b :: chunk) bytes
    rw [List.append_assoc] at hsplit
    rw [decodeOnto, hsplit]
    show decodeOnto (chars ++ (Utf8.decode (carry ++ b :: chunk)).1.map charOfSymbol)
      (Utf8.decode (carry ++ b :: chunk)).2 reads = _
    rw [ih _ hrest]
    have hchar : charOfSymbol = fun symbol => symbol.getD Utf8.replacement := rfl
    refine Prod.ext (Array.toList_inj.1 ?_) rfl
    simp [hchar]

theorem characters_of_delivers {bytes : List UInt8} {source : Source}
    (h : Delivers bytes source) :
    source.characters = { items := dropMark (Utf8.lossy bytes) } := by
  simp [characters, decodeOnto_of_delivers h #[] Utf8.decode_nil]

/-- However the bytes are delivered, the characters of a source are the text that the bytes stand
for, without a byte-order mark at the beginning. Two sources that deliver the same bytes have the
same items and the same findings. -/
theorem eq_of_delivers {bytes : List UInt8} {source : Source} (h : Delivers bytes source) :
    (∃ cs, (∀ ds, Utf8.Lossy bytes ds ↔ ds = cs) ∧
      source.characters = { items := dropMark cs, failure := none }) ∧
    ∀ other, Delivers bytes other → other.tokenize = source.tokenize ∧
      ∀ k, other.lint k = source.lint k := by
  refine ⟨⟨Utf8.lossy bytes, fun ds => Utf8.lossy_iff, characters_of_delivers h⟩, ?_⟩
  intro other hother
  have hcharacters : other.characters = source.characters := by
    rw [characters_of_delivers h, characters_of_delivers hother]
  have htokenize : other.tokenize = source.tokenize := by
    simp only [tokenize, outputs, hcharacters]
  refine ⟨htokenize, ?_⟩
  intro k
  simp only [lint, findings, htokenize]

/-- A character of two bytes, cut in the middle and with an interruption between its halves. -/
theorem eq_of_delivers_cut :
    Delivers [0xC3, 0xA9] [.bytes [0xC3], .interrupted, .bytes [0xA9]] ∧
      (∃ cs, (∀ ds, Utf8.Lossy [0xC3, 0xA9] ds ↔ ds = cs) ∧
        characters [.bytes [0xC3], .interrupted, .bytes [0xA9]] =
          { items := dropMark cs, failure := none }) := by
  have h : Delivers [0xC3, 0xA9] [.bytes [0xC3], .interrupted, .bytes [0xA9]] :=
    .chunk 0xC3 [] (.interrupted (.chunk 0xA9 [] .done))
  exact ⟨h, (eq_of_delivers h).1⟩

/-! ## Sources that are texts -/

theorem toList_loop (bytes : ByteArray) (i : Nat) (r : List UInt8) :
    ByteArray.toList.loop bytes i r = r.reverse ++ bytes.data.toList.drop i := by
  fun_induction ByteArray.toList.loop bytes i r with
  | case1 i r hlt ih =>
    have hget : bytes.data.toList.drop i = bytes.get! i :: bytes.data.toList.drop (i + 1) := by
      rw [List.drop_eq_getElem_cons (by simpa using hlt)]
      congr 1
      exact (getElem!_pos bytes.data i hlt).symm
    rw [ih, hget]
    simp
  | case2 i r hge =>
    have hdata : bytes.data.toList.length ≤ i := by simpa using hge
    simp [List.drop_eq_nil_of_le hdata]

/-- The bytes of a text are those of its characters. -/
theorem toList_toUTF8 (text : String) :
    text.toUTF8.toList = text.toList.flatMap String.utf8EncodeChar := by
  rw [ByteArray.toList, toList_loop, String.toUTF8, ← String.utf8Encode_toList, List.utf8Encode,
    List.toList_data_toByteArray]
  rfl

theorem lossy_flatMap (cs : List Char) :
    Utf8.lossy (cs.flatMap String.utf8EncodeChar) = cs := by
  have h : Utf8.Lossy (cs.flatMap String.utf8EncodeChar) cs := by
    induction cs with
    | nil => exact .nil
    | cons c cs ih => exact .char c ih
  exact (Utf8.lossy_iff.1 h).symm

/-- The characters of a text are its own, without a byte-order mark at the beginning. -/
theorem characters_ofString (text : String) :
    (ofString text).characters = { items := dropMark text.toList } := by
  have hdelivers : Delivers (text.toList.flatMap String.utf8EncodeChar) (ofString text) := by
    rw [ofString, ofBytes, toList_toUTF8]
    cases text.toList.flatMap String.utf8EncodeChar with
    | nil => exact .closed []
    | cons b chunk =>
      have h := Delivers.chunk b chunk .done
      rwa [List.append_nil] at h
  rw [characters_of_delivers hdelivers, lossy_flatMap]

/-- The items of a text given by its characters. -/
theorem items_tokenize_ofString (cs : List Char) :
    (ofString (String.ofList cs)).tokenize.items = Scan.scanText (dropMark cs) := by
  have hcharacters : (ofString (String.ofList cs)).characters = { items := dropMark cs } := by
    rw [characters_ofString, String.toList_ofList]
  rw [items_tokenize (by rw [hcharacters]), hcharacters]

end Source

end Stylesheet
