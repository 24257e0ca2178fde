import Mathlib.Data.String.Basic
import Mathlib.Tactic.SplitIfs
import Stylesheet.Proofs.Source

set_option autoImplicit false

/-! # The order of texts

Texts are compared character by character, and characters by their code points. This is the same
as comparing the UTF-8 forms of the texts byte by byte (`lt_iff_bytes_lt`): the encodings of two
characters differ at a byte that both of them have, and the one with the greater code point has the
greater byte there, whether the two are of the same length or not. -/

namespace Stylesheet.Text

/-- The UTF-8 form of a text. -/
def bytes (s : String) : List UInt8 := s.toUTF8.toList

theorem ofNat_lt_ofNat_iff {m n : Nat} (hm : m < 256) (hn : n < 256) :
    UInt8.ofNat m < UInt8.ofNat n ↔ m < n := by
  rw [UInt8.lt_iff_toNat_lt, UInt8.toNat_ofNat_of_lt' hm, UInt8.toNat_ofNat_of_lt' hn]

theorem ofNat_eq_ofNat_iff {m n : Nat} (hm : m < 256) (hn : n < 256) :
    UInt8.ofNat m = UInt8.ofNat n ↔ m = n := by
  rw [← UInt8.toNat_inj, UInt8.toNat_ofNat_of_lt' hm, UInt8.toNat_ofNat_of_lt' hn]

/-- The encodings of two characters decide the order of the bytes, whatever follows them. -/
theorem utf8EncodeChar_append_lt {c d : Char} (h : c < d) (rest rest' : List UInt8) :
    String.utf8EncodeChar c ++ rest < String.utf8EncodeChar d ++ rest' := by
  have hlt : c.val.toNat < d.val.toNat := h
  have hd : d.val.toNat < 0x110000 := by
    rcases Utf8.toNat_val_cases d with h | h <;> omega
  -- six bits at a time, so that the shares of neighbouring bytes are seen to fit together
  have hthree (n : Nat) : n / 262144 = n / 64 / 64 / 64 := by omega
  have htwo (n : Nat) : n / 4096 = n / 64 / 64 := by omega
  simp only [String.utf8EncodeChar, hthree, htwo]
  generalize c.val.toNat = m at hlt
  generalize d.val.toNat = n at hlt hd
  split_ifs <;> simp (disch := omega) only [List.cons_append, List.nil_append,
    List.cons_lt_cons_iff, ofNat_lt_ofNat_iff, ofNat_eq_ofNat_iff] <;> omega

theorem flatMap_utf8EncodeChar_lt {cs ds : List Char} (h : cs < ds) :
    cs.flatMap String.utf8EncodeChar < ds.flatMap String.utf8EncodeChar := by
  induction cs generalizing ds with
  | nil =>
    cases ds with
    | nil => exact absurd h (List.not_lt_nil _)
    | cons d ds =>
      have hne : String.utf8EncodeChar d ≠ [] := by
        rw [← List.length_pos_iff, String.length_utf8EncodeChar]
        exact d.utf8Size_pos
      obtain ⟨b, more, hmore⟩ := List.exists_cons_of_ne_nil hne
      rw [List.flatMap_cons, hmore]
      exact List.nil_lt_cons _ _
  | cons c cs ih =>
    cases ds with
    | nil => exact absurd h (List.not_lt_nil _)
    | cons d ds =>
      rw [List.flatMap_cons, List.flatMap_cons]
      rcases List.cons_lt_cons_iff.1 h with hlt | ⟨rfl, hrest⟩
      · exact utf8EncodeChar_append_lt hlt _ _
      · exact List.append_left_lt (ih hrest)

/-- Texts are in the order of their UTF-8 bytes. -/
theorem lt_iff_bytes_lt (s t : String) : s < t ↔ bytes s < bytes t := by
  rw [bytes, bytes, Source.toList_toUTF8, Source.toList_toUTF8, String.lt_iff_toList_lt]
  constructor
  · exact flatMap_utf8EncodeChar_lt
  · intro h
    rcases lt_trichotomy s t with hlt | rfl | hgt
    · exact String.lt_iff_toList_lt.1 hlt
    · exact absurd h (List.lt_irrefl _)
    · exact absurd h
        (List.lt_asymm (flatMap_utf8EncodeChar_lt (String.lt_iff_toList_lt.1 hgt)))

theorem compare_eq_lt_iff (s t : String) : compare s t = .lt ↔ bytes s < bytes t := by
  rw [← lt_iff_bytes_lt]
  exact compareOfLessAndEq_eq_lt

end Stylesheet.Text
