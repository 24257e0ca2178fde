import Mathlib.Data.List.Basic
import Stylesheet.Utf8

set_option autoImplicit false

/-! # Decoding UTF-8 with replacements

`Lossy bytes cs` says, without the decoder, which text stands for bytes that need not be UTF-8:
encoded characters stand for themselves, and whatever does not belong to one is replaced, as much of
it at once as still begins a character. `lossy_iff` shows that the decoder finds this text and no
other. -/

namespace Stylesheet.Utf8

/-- The bytes are the beginning of some character, or all of it. -/
def Begins (bytes : List UInt8) : Prop := ∃ c, bytes <+: String.utf8EncodeChar c

/-- The bytes are some of the first bytes of a character, but not all of them. -/
def Unfinished (bytes : List UInt8) : Prop :=
  bytes ≠ [] ∧ ∃ c, bytes <+: String.utf8EncodeChar c ∧ bytes ≠ String.utf8EncodeChar c

/-- The text that bytes stand for, with replacements for what is not UTF-8. -/
inductive Lossy : List UInt8 → List Char → Prop
  | nil : Lossy [] []
  | char (c : Char) {bytes : List UInt8} {cs : List Char} (h : Lossy bytes cs) :
      Lossy (String.utf8EncodeChar c ++ bytes) (c :: cs)
  /-- A byte that begins no character. -/
  | stray (b : UInt8) (hb : ¬ Begins [b]) {bytes : List UInt8} {cs : List Char}
      (h : Lossy bytes cs) : Lossy (b :: bytes) (replacement :: cs)
  /-- A character that breaks off because of the byte `next`. -/
  | broken (bad : List UInt8) (next : UInt8) (hbad : Unfinished bad)
      (hnext : ¬ Begins (bad ++ [next])) {bytes : List UInt8} {cs : List Char}
      (h : Lossy (next :: bytes) cs) : Lossy (bad ++ next :: bytes) (replacement :: cs)
  /-- A character that breaks off because nothing follows. -/
  | incomplete (bad : List UInt8) (hbad : Unfinished bad) : Lossy bad [replacement]

/-! ## The bytes of a character -/

theorem width_eq (a : UInt8) :
    width a = if a.toNat < 0x80 then 1 else if a.toNat < 0xC2 then 0 else if a.toNat < 0xE0 then 2
      else if a.toNat < 0xF0 then 3 else if a.toNat < 0xF5 then 4 else 0 := by
  simp [width, UInt8.lt_iff_toNat_lt]

theorem isTail_iff {b : UInt8} : isTail b = true ↔ 0x80 ≤ b.toNat ∧ b.toNat < 0xC0 := by
  simp [isTail, UInt8.lt_iff_toNat_lt, UInt8.le_iff_toNat_le]

theorem isSecond_iff {a b : UInt8} : isSecond a b = true ↔
    (0x80 ≤ b.toNat ∧ b.toNat < 0xC0) ∧ (a.toNat = 0xE0 → 0xA0 ≤ b.toNat) ∧
      (a.toNat = 0xED → b.toNat < 0xA0) ∧ (a.toNat = 0xF0 → 0x90 ≤ b.toNat) ∧
      (a.toNat = 0xF4 → b.toNat < 0x90) := by
  unfold isSecond
  simp only [beq_iff_eq, ← UInt8.toNat_inj, UInt8.reduceToNat]
  repeat' split
  all_goals
    simp only [Bool.and_eq_true, decide_eq_true_eq, UInt8.lt_iff_toNat_lt, UInt8.le_iff_toNat_le,
      UInt8.reduceToNat, isTail_iff]
    omega

theorem width_eq_one {a : UInt8} : width a = 1 ↔ a.toNat < 0x80 := by
  rw [width_eq]; grind

theorem width_eq_two {a : UInt8} : width a = 2 ↔ 0xC2 ≤ a.toNat ∧ a.toNat < 0xE0 := by
  rw [width_eq]; grind

theorem width_eq_three {a : UInt8} : width a = 3 ↔ 0xE0 ≤ a.toNat ∧ a.toNat < 0xF0 := by
  rw [width_eq]; grind

theorem width_eq_four {a : UInt8} : width a = 4 ↔ 0xF0 ≤ a.toNat ∧ a.toNat < 0xF5 := by
  rw [width_eq]; grind

/-- The bytes that the decoder takes for a character. -/
inductive Encodes : List UInt8 → Char → Prop
  | one (a : UInt8) (ha : width a = 1) : Encodes [a] (Char.ofNat a.toNat)
  | two (a b : UInt8) (ha : width a = 2) (hb : isTail b = true) : Encodes [a, b] (char2 a b)
  | three (a b c : UInt8) (ha : width a = 3) (hb : isSecond a b = true) (hc : isTail c = true) :
      Encodes [a, b, c] (char3 a b c)
  | four (a b c d : UInt8) (ha : width a = 4) (hb : isSecond a b = true) (hc : isTail c = true)
      (hd : isTail d = true) : Encodes [a, b, c, d] (char4 a b c d)

/-- The code points that are characters. -/
theorem toNat_val_ofNat {n : Nat} (h : n < 0xD800 ∨ 0xDFFF < n ∧ n < 0x110000) :
    (Char.ofNat n).val.toNat = n := by
  have hvalid : n.isValidChar := h
  rw [Char.ofNat, dif_pos hvalid]
  exact UInt32.toNat_ofNatLT

theorem toNat_val_cases (c : Char) :
    c.val.toNat < 0xD800 ∨ 0xDFFF < c.val.toNat ∧ c.val.toNat < 0x110000 := c.valid

theorem ofNat_toNat_val (c : Char) : Char.ofNat c.val.toNat = c :=
  Char.ext (UInt32.toNat_inj.1 (toNat_val_ofNat (toNat_val_cases c)))

theorem eq_of_toNat_eq {a : UInt8} {n : Nat} (h : a.toNat = n) : UInt8.ofNat n = a := by
  rw [← h, UInt8.ofNat_toNat]

/-- The bytes the decoder takes for a character are the encoding of that character. -/
theorem Encodes.utf8EncodeChar_eq {bytes : List UInt8} {c : Char} (h : Encodes bytes c) :
    String.utf8EncodeChar c = bytes := by
  cases h with
  | one a ha =>
    have ha' := width_eq_one.1 ha
    have hv : (Char.ofNat a.toNat).val.toNat = a.toNat := toNat_val_ofNat (by omega)
    simp only [String.utf8EncodeChar, hv]
    rw [if_pos (by omega), UInt8.ofNat_toNat]
  | two a b ha hb =>
    have ha' := width_eq_two.1 ha
    have hb' := isTail_iff.1 hb
    have hv : (char2 a b).val.toNat = a.toNat % 0x20 * 0x40 + b.toNat % 0x40 :=
      toNat_val_ofNat (by simp only [tailBits]; omega)
    simp only [String.utf8EncodeChar, hv]
    rw [if_neg (by omega), if_pos (by omega)]
    congr 1
    · exact eq_of_toNat_eq (by omega)
    · congr 1
      exact eq_of_toNat_eq (by omega)
  | three a b d ha hb hd =>
    have ha' := width_eq_three.1 ha
    have hb' := isSecond_iff.1 hb
    have hd' := isTail_iff.1 hd
    have hv : (char3 a b d).val.toNat =
        (a.toNat % 0x10 * 0x40 + b.toNat % 0x40) * 0x40 + d.toNat % 0x40 :=
      toNat_val_ofNat (by simp only [tailBits]; omega)
    simp only [String.utf8EncodeChar, hv]
    rw [if_neg (by omega), if_neg (by omega), if_pos (by omega)]
    congr 1
    · exact eq_of_toNat_eq (by omega)
    · congr 1
      · exact eq_of_toNat_eq (by omega)
      · congr 1
        exact eq_of_toNat_eq (by omega)
  | four a b d e ha hb hd he =>
    have ha' := width_eq_four.1 ha
    have hb' := isSecond_iff.1 hb
    have hd' := isTail_iff.1 hd
    have he' := isTail_iff.1 he
    have hv : (char4 a b d e).val.toNat =
        ((a.toNat % 0x08 * 0x40 + b.toNat % 0x40) * 0x40 + d.toNat % 0x40) * 0x40 +
          e.toNat % 0x40 :=
      toNat_val_ofNat (by simp only [tailBits]; omega)
    simp only [String.utf8EncodeChar, hv]
    rw [if_neg (by omega), if_neg (by omega), if_neg (by omega)]
    congr 1
    · exact eq_of_toNat_eq (by omega)
    · congr 1
      · exact eq_of_toNat_eq (by omega)
      · congr 1
        · exact eq_of_toNat_eq (by omega)
        · congr 1
          exact eq_of_toNat_eq (by omega)

/-- The decoder takes the encoding of every character for that character. -/
theorem encodes_utf8EncodeChar (c : Char) : Encodes (String.utf8EncodeChar c) c := by
  have hc := toNat_val_cases c
  have hself := ofNat_toNat_val c
  generalize hv : c.val.toNat = v at hc hself
  -- each byte carries its share of the code point
  have hbyte (n : Nat) (hn : n < 256) : (UInt8.ofNat n).toNat = n := UInt8.toNat_ofNat_of_lt hn
  unfold String.utf8EncodeChar
  simp only [hv]
  by_cases h₁ : v ≤ 0x7f
  · rw [if_pos h₁]
    have ha := hbyte v (by omega)
    generalize UInt8.ofNat v = a at ha ⊢
    have hchar : Char.ofNat a.toNat = c := by rw [ha, hself]
    exact hchar ▸ Encodes.one a (width_eq_one.2 (by omega))
  · rw [if_neg h₁]
    by_cases h₂ : v ≤ 0x7ff
    · rw [if_pos h₂]
      have ha := hbyte (v / 64 % 0x20 + 0xc0) (by omega)
      have hb := hbyte (v % 0x40 + 0x80) (by omega)
      generalize UInt8.ofNat (v / 64 % 0x20 + 0xc0) = a at ha ⊢
      generalize UInt8.ofNat (v % 0x40 + 0x80) = b at hb ⊢
      have hchar : char2 a b = c := by
        rw [char2, tailBits, ← hself]
        congr 1
        omega
      exact hchar ▸ Encodes.two a b (width_eq_two.2 (by omega)) (isTail_iff.2 (by omega))
    · rw [if_neg h₂]
      by_cases h₃ : v ≤ 0xffff
      · rw [if_pos h₃]
        have ha := hbyte (v / 4096 % 0x10 + 0xe0) (by omega)
        have hb := hbyte (v / 64 % 0x40 + 0x80) (by omega)
        have hd := hbyte (v % 0x40 + 0x80) (by omega)
        generalize UInt8.ofNat (v / 4096 % 0x10 + 0xe0) = a at ha ⊢
        generalize UInt8.ofNat (v / 64 % 0x40 + 0x80) = b at hb ⊢
        generalize UInt8.ofNat (v % 0x40 + 0x80) = d at hd ⊢
        have hchar : char3 a b d = c := by
          rw [char3, tailBits, tailBits, ← hself]
          congr 1
          omega
        exact hchar ▸ Encodes.three a b d (width_eq_three.2 (by omega))
          (isSecond_iff.2 (by omega)) (isTail_iff.2 (by omega))
      · rw [if_neg h₃]
        have ha := hbyte (v / 262144 % 0x08 + 0xf0) (by omega)
        have hb := hbyte (v / 4096 % 0x40 + 0x80) (by omega)
        have hd := hbyte (v / 64 % 0x40 + 0x80) (by omega)
        have he := hbyte (v % 0x40 + 0x80) (by omega)
        generalize UInt8.ofNat (v / 262144 % 0x08 + 0xf0) = a at ha ⊢
        generalize UInt8.ofNat (v / 4096 % 0x40 + 0x80) = b at hb ⊢
        generalize UInt8.ofNat (v / 64 % 0x40 + 0x80) = d at hd ⊢
        generalize UInt8.ofNat (v % 0x40 + 0x80) = e at he ⊢
        have hchar : char4 a b d e = c := by
          rw [char4, tailBits, tailBits, tailBits, ← hself]
          congr 1
          omega
        exact hchar ▸ Encodes.four a b d e (width_eq_four.2 (by omega))
          (isSecond_iff.2 (by omega)) (isTail_iff.2 (by omega)) (isTail_iff.2 (by omega))

theorem encodes_iff {bytes : List UInt8} {c : Char} :
    Encodes bytes c ↔ String.utf8EncodeChar c = bytes := by
  constructor
  · exact Encodes.utf8EncodeChar_eq
  · rintro rfl
    exact encodes_utf8EncodeChar c

/-! ## The first bytes of a character -/

/-- The bytes after which the decoder waits for more. -/
inductive Cut : List UInt8 → Prop
  | one (a : UInt8) (ha : 2 ≤ width a) : Cut [a]
  | two (a b : UInt8) (ha : 3 ≤ width a) (hb : isSecond a b = true) : Cut [a, b]
  | three (a b c : UInt8) (ha : 4 ≤ width a) (hb : isSecond a b = true) (hc : isTail c = true) :
      Cut [a, b, c]

theorem width_le_four (a : UInt8) : width a ≤ 4 := by
  rw [width_eq]; grind

theorem exists_isSecond (a : UInt8) : ∃ b, isSecond a b = true := by
  by_cases hE0 : a.toNat = 0xE0
  · exact ⟨0xA0, isSecond_iff.2 (by simp; omega)⟩
  · by_cases hF0 : a.toNat = 0xF0
    · exact ⟨0x90, isSecond_iff.2 (by simp; omega)⟩
    · exact ⟨0x80, isSecond_iff.2 (by simp; omega)⟩

theorem isTail_of_isSecond {a b : UInt8} (h : isSecond a b = true) : isTail b = true :=
  isTail_iff.2 (isSecond_iff.1 h).1

/-- A beginning that the decoder takes for one can be finished. -/
theorem Cut.exists_encodes {bytes : List UInt8} (h : Cut bytes) :
    ∃ more c, more ≠ [] ∧ Encodes (bytes ++ more) c := by
  have htail : isTail 0x80 = true := by decide
  -- from two or three bytes on, any continuing bytes will do
  have htwo {a b : UInt8} (ha : 3 ≤ width a) (hb : isSecond a b = true) :
      ∃ more c, more ≠ [] ∧ Encodes ([a, b] ++ more) c := by
    by_cases h₃ : width a = 3
    · exact ⟨[0x80], _, by simp, .three a b _ h₃ hb htail⟩
    · have h₄ := width_le_four a
      exact ⟨[0x80, 0x80], _, by simp, .four a b _ _ (by omega) hb htail htail⟩
  cases h with
  | one a ha =>
    obtain ⟨b, hb⟩ := exists_isSecond a
    by_cases h₂ : width a = 2
    · exact ⟨[b], _, by simp, .two a b h₂ (isTail_of_isSecond hb)⟩
    · obtain ⟨more, c, -, hmore⟩ := htwo (by omega) hb
      exact ⟨b :: more, c, by simp, hmore⟩
  | two a b ha hb => exact htwo ha hb
  | three a b d ha hb hd =>
    have h₄ := width_le_four a
    exact ⟨[0x80], _, by simp, .four a b d _ (by omega) hb hd htail⟩

theorem cut_iff {bytes : List UInt8} : Cut bytes ↔ Unfinished bytes := by
  constructor
  · intro h
    obtain ⟨more, c, hmore, hc⟩ := h.exists_encodes
    refine ⟨by cases h <;> simp, c, ?_, ?_⟩
    · rw [encodes_iff.1 hc]
      exact List.prefix_append _ _
    · rw [encodes_iff.1 hc]
      simpa using hmore
  · rintro ⟨hne, c, ⟨more, hmore⟩, hproper⟩
    have hmore' : more ≠ [] := by
      rintro rfl
      exact hproper (by simpa using hmore)
    obtain ⟨a, front, rfl⟩ := List.exists_cons_of_ne_nil hne
    obtain ⟨z, back, rfl⟩ := List.exists_cons_of_ne_nil hmore'
    have hc := encodes_utf8EncodeChar c
    rw [← hmore] at hc
    -- what is left of the character after its first bytes tells how many there are
    generalize hall : (a :: front) ++ z :: back = all at hc
    cases hc with
    | one a' ha => simp at hall
    | two a' b ha hb =>
      match front, hall with
      | [], hall =>
        obtain ⟨rfl, -⟩ := List.cons.inj hall
        exact .one a (by omega)
      | [_], hall | _ :: _ :: _, hall => simp at hall
    | three a' b d ha hb hd =>
      match front, hall with
      | [], hall =>
        obtain ⟨rfl, -⟩ := List.cons.inj hall
        exact .one a (by omega)
      | [x], hall =>
        simp only [List.cons_append, List.nil_append, List.cons.injEq] at hall
        obtain ⟨rfl, rfl, -⟩ := hall
        exact .two a x (by omega) hb
      | [_, _], hall | _ :: _ :: _ :: _, hall => simp at hall
    | four a' b d e ha hb hd he =>
      match front, hall with
      | [], hall =>
        obtain ⟨rfl, -⟩ := List.cons.inj hall
        exact .one a (by omega)
      | [x], hall =>
        simp only [List.cons_append, List.nil_append, List.cons.injEq] at hall
        obtain ⟨rfl, rfl, -⟩ := hall
        exact .two a x (by omega) hb
      | [x, y], hall =>
        simp only [List.cons_append, List.nil_append, List.cons.injEq] at hall
        obtain ⟨rfl, rfl, rfl, -⟩ := hall
        exact .three a x y (by omega) hb hd
      | [_, _, _], hall | _ :: _ :: _ :: _ :: _, hall => simp at hall

theorem Cut.begins {bytes : List UInt8} (h : Cut bytes) : Begins bytes := by
  obtain ⟨-, c, hprefix, -⟩ := cut_iff.1 h
  exact ⟨c, hprefix⟩

theorem Encodes.begins {bytes : List UInt8} {c : Char} (h : Encodes bytes c) : Begins bytes := by
  obtain rfl := encodes_iff.1 h
  exact ⟨c, List.prefix_rfl⟩

/-- The beginning of a character is all of it or leaves the decoder waiting. -/
theorem begins_iff {bytes : List UInt8} (hne : bytes ≠ []) :
    Begins bytes ↔ (∃ c, Encodes bytes c) ∨ Cut bytes := by
  constructor
  · rintro ⟨c, hprefix⟩
    by_cases hall : bytes = String.utf8EncodeChar c
    · exact Or.inl ⟨c, encodes_iff.2 hall.symm⟩
    · exact Or.inr (cut_iff.2 ⟨hne, c, hprefix, hall⟩)
  · rintro (⟨c, hc⟩ | hcut)
    · exact hc.begins
    · exact hcut.begins

/-- All bytes of a character but the first are continuing ones. -/
theorem isTail_of_begins {a b : UInt8} {more : List UInt8} (h : Begins (a :: more))
    (hb : b ∈ more) : isTail b = true := by
  rcases (begins_iff (by simp)).1 h with ⟨c, hc⟩ | hcut
  · cases hc with
    | one => simp at hb
    | two _ _ _ h₁ => rwa [List.mem_singleton.1 hb]
    | three _ _ _ _ h₁ h₂ =>
      rcases List.mem_pair.1 hb with rfl | rfl
      · exact isTail_of_isSecond h₁
      · exact h₂
    | four _ _ _ _ _ h₁ h₂ h₃ =>
      rcases List.mem_cons.1 hb with rfl | hb
      · exact isTail_of_isSecond h₁
      · rcases List.mem_pair.1 hb with rfl | rfl <;> assumption
  · cases hcut with
    | one => simp at hb
    | two _ _ _ h₁ => rw [List.mem_singleton.1 hb]; exact isTail_of_isSecond h₁
    | three _ _ _ _ h₁ h₂ =>
      rcases List.mem_pair.1 hb with rfl | rfl
      · exact isTail_of_isSecond h₁
      · exact h₂

/-! ## The decoder -/

/-- What the first bytes of a sequence stand for, and how many bytes after the first belong to
it. -/
inductive First : UInt8 → List UInt8 → Option (Symbol × Nat) → Prop
  | char {a : UInt8} (more : List UInt8) {c : Char} (h : Encodes (a :: more) c)
      (rest : List UInt8) : First a (more ++ rest) (some (some c, more.length))
  | stray {a : UInt8} (h : ¬ Begins [a]) (rest : List UInt8) : First a rest (some (none, 0))
  | broken {a : UInt8} (more : List UInt8) {next : UInt8} (h : Cut (a :: more))
      (hnext : ¬ Begins (a :: more ++ [next])) (rest : List UInt8) :
      First a (more ++ next :: rest) (some (none, more.length))
  | incomplete {a : UInt8} {rest : List UInt8} (h : Cut (a :: rest)) : First a rest none

theorem not_begins_one {a : UInt8} (h₀ : width a = 0) : ¬ Begins [a] := by
  rw [begins_iff (by simp)]
  rintro (⟨c, hc⟩ | hcut)
  · cases hc
    omega
  · cases hcut
    omega

theorem not_begins_two {a b : UInt8} (h : isTail b = false ∨ 3 ≤ width a ∧ isSecond a b = false) :
    ¬ Begins [a, b] := by
  rw [begins_iff (by simp)]
  rintro (⟨c, hc⟩ | hcut)
  · cases hc with
    | two _ _ ha hb =>
      rcases h with h | ⟨h, -⟩
      · simp [hb] at h
      · omega
  · cases hcut with
    | two _ _ ha hb =>
      rcases h with h | ⟨-, h⟩
      · simp [isTail_of_isSecond hb] at h
      · simp [hb] at h

theorem not_begins_three {a b c : UInt8} (h : isTail c = false) : ¬ Begins [a, b, c] := by
  rw [begins_iff (by simp)]
  rintro (⟨_, hc⟩ | hcut)
  · cases hc with
    | three _ _ _ ha hb hc => simp [hc] at h
  · cases hcut with
    | three _ _ _ ha hb hc => simp [hc] at h

theorem not_begins_four {a b c d : UInt8} (h : isTail d = false) : ¬ Begins [a, b, c, d] := by
  rw [begins_iff (by simp)]
  rintro (⟨_, hc⟩ | hcut)
  · cases hc with
    | four _ _ _ _ ha hb hc hd => simp [hd] at h
  · cases hcut

/-- The decoder reads one symbol as described. -/
theorem first_firstSymbol (a : UInt8) (rest : List UInt8) :
    First a rest (firstSymbol a rest) := by
  unfold firstSymbol
  split
  · next ha => exact .char [] (.one a ha) rest
  · next ha =>
    split
    · exact .incomplete (.one a (by omega))
    · next b rest =>
      split
      · next hb => exact .char [b] (.two a b ha hb) rest
      · next hb =>
        rw [Bool.not_eq_true] at hb
        exact .broken [] (.one a (by omega)) (not_begins_two (Or.inl hb)) rest
  · next ha =>
    split
    · exact .incomplete (.one a (by omega))
    · next b rest =>
      split
      · next hb =>
        split
        · exact .incomplete (.two a b (by omega) hb)
        · next c rest =>
          split
          · next hc => exact .char [b, c] (.three a b c ha hb hc) rest
          · next hc =>
            rw [Bool.not_eq_true] at hc
            exact .broken [b] (.two a b (by omega) hb) (not_begins_three hc) rest
      · next hb =>
        rw [Bool.not_eq_true] at hb
        exact .broken [] (.one a (by omega)) (not_begins_two (Or.inr ⟨by omega, hb⟩)) rest
  · next ha =>
    split
    · exact .incomplete (.one a (by omega))
    · next b rest =>
      split
      · next hb =>
        split
        · exact .incomplete (.two a b (by omega) hb)
        · next c rest =>
          split
          · next hc =>
            split
            · exact .incomplete (.three a b c (by omega) hb hc)
            · next d rest =>
              split
              · next hd => exact .char [b, c, d] (.four a b c d ha hb hc hd) rest
              · next hd =>
                rw [Bool.not_eq_true] at hd
                exact .broken [b, c] (.three a b c (by omega) hb hc)
                  (not_begins_four hd) rest
          · next hc =>
            rw [Bool.not_eq_true] at hc
            exact .broken [b] (.two a b (by omega) hb) (not_begins_three hc) rest
      · next hb =>
        rw [Bool.not_eq_true] at hb
        exact .broken [] (.one a (by omega)) (not_begins_two (Or.inr ⟨by omega, hb⟩)) rest
  · next h₁ h₂ h₃ h₄ =>
    have ha := width_le_four a
    exact .stray (not_begins_one (by grind)) rest

theorem width_cases (a : UInt8) :
    width a = 0 ∨ width a = 1 ∨ width a = 2 ∨ width a = 3 ∨ width a = 4 := by
  have ha := width_le_four a
  omega

/-- Nothing else describes what the decoder reads. -/
theorem First.firstSymbol_eq {a : UInt8} {rest : List UInt8} {found : Option (Symbol × Nat)}
    (h : First a rest found) : firstSymbol a rest = found := by
  cases h with
  | char more hc rest =>
    cases hc with
    | one _ ha => simp [firstSymbol, ha]
    | two _ b ha hb => simp [firstSymbol, ha, hb]
    | three _ b c ha hb hc => simp [firstSymbol, ha, hb, hc]
    | four _ b c d ha hb hc hd => simp [firstSymbol, ha, hb, hc, hd]
  | stray ha rest =>
    have h₁ : width a ≠ 1 := fun h => ha (Encodes.one a h).begins
    have h₂ : ¬ 2 ≤ width a := fun h => ha (Cut.one a h).begins
    have h₀ : width a = 0 := by omega
    simp [firstSymbol, h₀]
  | @broken more next hcut hnext rest =>
    cases hcut with
    | one _ ha =>
      rcases width_cases a with h | h | h | h | h
      · omega
      · omega
      · have hb : isTail next = false := by
          by_contra hb
          exact hnext (Encodes.two a next h (by simpa using hb)).begins
        simp [firstSymbol, h, hb]
      · have hb : isSecond a next = false := by
          by_contra hb
          exact hnext (Cut.two a next (by omega) (by simpa using hb)).begins
        simp [firstSymbol, h, hb]
      · have hb : isSecond a next = false := by
          by_contra hb
          exact hnext (Cut.two a next (by omega) (by simpa using hb)).begins
        simp [firstSymbol, h, hb]
    | two _ b ha hb =>
      have hc : isTail next = false := by
        by_contra hc
        have hc' : isTail next = true := by simpa using hc
        by_cases h₃ : width a = 3
        · exact hnext (Encodes.three a b next h₃ hb hc').begins
        · have h₄ := width_le_four a
          exact hnext (Cut.three a b next (by omega) hb hc').begins
      rcases width_cases a with h | h | h | h | h
      · omega
      · omega
      · omega
      · simp [firstSymbol, h, hb, hc]
      · simp [firstSymbol, h, hb, hc]
    | three _ b c ha hb hc =>
      have h₄ : width a = 4 := by
        have := width_le_four a
        omega
      have hd : isTail next = false := by
        by_contra hd
        exact hnext (Encodes.four a b c next h₄ hb hc (by simpa using hd)).begins
      simp [firstSymbol, h₄, hb, hc, hd]
  | incomplete hcut =>
    cases hcut with
    | one _ ha =>
      rcases width_cases a with h | h | h | h | h
      · omega
      · omega
      · simp [firstSymbol, h]
      · simp [firstSymbol, h]
      · simp [firstSymbol, h]
    | two _ b ha hb =>
      rcases width_cases a with h | h | h | h | h
      · omega
      · omega
      · omega
      · simp [firstSymbol, h, hb]
      · simp [firstSymbol, h, hb]
    | three _ b c ha hb hc =>
      have h₄ : width a = 4 := by
        have := width_le_four a
        omega
      simp [firstSymbol, h₄, hb, hc]

/-! ## A whole sequence -/

theorem decodeOnto_skip (symbols : Array Symbol) (skip : Nat) (bytes : List UInt8) :
    decodeOnto symbols skip bytes = decodeOnto symbols 0 (bytes.drop skip) := by
  induction skip generalizing bytes with
  | zero => rfl
  | succ skip ih =>
    cases bytes with
    | nil => rfl
    | cons a rest =>
      rw [List.drop_succ_cons, ← ih rest, decodeOnto]

@[simp] theorem decode_nil : decode [] = ([], []) := rfl

/-- One symbol is decoded after the other. -/
theorem decode_cons (a : UInt8) (rest : List UInt8) :
    decode (a :: rest) =
      match firstSymbol a rest with
      | none => ([], a :: rest)
      | some (symbol, more) =>
        (symbol :: (decode (rest.drop more)).1, (decode (rest.drop more)).2) := by
  unfold decode
  rw [decodeOnto]
  cases firstSymbol a rest with
  | none => rfl
  | some found =>
    obtain ⟨symbol, more⟩ := found
    simp only
    rw [decodeOnto_skip, decodeOnto_eq_append]
    simp

theorem First.length_le {a : UInt8} {rest : List UInt8} {symbol : Symbol} {more : Nat}
    (h : First a rest (some (symbol, more))) : more ≤ rest.length := by
  cases h <;> simp

/-- What has been decided stays decided when more bytes follow. -/
theorem First.append {a : UInt8} {rest : List UInt8} {found : Symbol × Nat}
    (h : First a rest (some found)) (more : List UInt8) : First a (rest ++ more) (some found) := by
  cases h with
  | char front hc rest =>
    rw [List.append_assoc]
    exact .char front hc (rest ++ more)
  | stray ha rest => exact .stray ha (rest ++ more)
  | broken front hcut hnext rest =>
    rw [List.append_assoc]
    exact .broken front hcut hnext (rest ++ more)

/-- Decoding can stop anywhere and go on with the unfinished character and what follows it. -/
theorem decode_append (bytes more : List UInt8) :
    decode (bytes ++ more) =
      ((decode bytes).1 ++ (decode ((decode bytes).2 ++ more)).1,
        (decode ((decode bytes).2 ++ more)).2) := by
  induction h : bytes.length using Nat.strongRecOn generalizing bytes with
  | ind n ih =>
    cases bytes with
    | nil => simp
    | cons a rest =>
      rw [decode_cons a rest]
      cases hfirst : firstSymbol a rest with
      | none => simp
      | some found =>
        obtain ⟨symbol, size⟩ := found
        have hdescribed := first_firstSymbol a rest
        rw [hfirst] at hdescribed
        have hle := hdescribed.length_le
        have hmore := (hdescribed.append more).firstSymbol_eq
        have hrest := ih (rest.drop size).length (by simp at h ⊢; omega) (rest.drop size) rfl
        rw [List.cons_append, decode_cons, hmore]
        simp only [List.drop_append_of_le_length hle, hrest, List.cons_append]

/-- The unfinished character at the end of a sequence is nothing but that. -/
theorem decode_rest (bytes : List UInt8) : decode (decode bytes).2 = ([], (decode bytes).2) := by
  have h := decode_append bytes []
  simp only [List.append_nil] at h
  have h₁ := congrArg Prod.fst h
  have h₂ := congrArg Prod.snd h
  refine Prod.ext ?_ h₂.symm
  simpa using h₁

/-- The text of a byte sequence as the decoder finds it, with a replacement for an unfinished
character at the end. -/
def lossy (bytes : List UInt8) : List Char :=
  (decode bytes).1.map (·.getD replacement) ++
    if (decode bytes).2.isEmpty then [] else [replacement]

theorem lossy_append (bytes more : List UInt8) :
    lossy (bytes ++ more) =
      (decode bytes).1.map (·.getD replacement) ++ lossy ((decode bytes).2 ++ more) := by
  simp [lossy, decode_append bytes more]

theorem First.lossy_cons {a : UInt8} {rest : List UInt8} {symbol : Symbol} {more : Nat}
    (h : First a rest (some (symbol, more))) :
    lossy (a :: rest) = symbol.getD replacement :: lossy (rest.drop more) := by
  simp [lossy, decode_cons, h.firstSymbol_eq]

theorem lossy_of_cut {bytes : List UInt8} (h : Cut bytes) : lossy bytes = [replacement] := by
  cases bytes with
  | nil => cases h
  | cons a rest => simp [lossy, decode_cons, (First.incomplete h).firstSymbol_eq]

/-- The decoder finds the text that a byte sequence stands for, and no other text does. -/
theorem lossy_iff {bytes : List UInt8} {cs : List Char} : Lossy bytes cs ↔ cs = lossy bytes := by
  constructor
  · intro h
    induction h with
    | nil => rfl
    | @char c bytes cs _ ih =>
      have hc := encodes_utf8EncodeChar c
      obtain ⟨a, more, hmore⟩ := List.exists_cons_of_ne_nil (String.utf8EncodeChar_ne_nil (c := c))
      rw [hmore] at hc ⊢
      rw [List.cons_append, (First.char more hc bytes).lossy_cons, List.drop_left, ih]
      rfl
    | @stray b hb bytes cs _ ih =>
      rw [(First.stray hb bytes).lossy_cons, ih]
      rfl
    | @broken bad next hbad hnext bytes cs _ ih =>
      obtain ⟨a, more, rfl⟩ := List.exists_cons_of_ne_nil hbad.1
      rw [List.cons_append, (First.broken more (cut_iff.2 hbad) hnext bytes).lossy_cons,
        List.drop_left, ih]
      rfl
    | incomplete bad hbad => rw [lossy_of_cut (cut_iff.2 hbad)]
  · rintro rfl
    induction h : bytes.length using Nat.strongRecOn generalizing bytes with
    | ind n ih =>
      cases bytes with
      | nil => exact .nil
      | cons a rest =>
        have hfirst := first_firstSymbol a rest
        generalize firstSymbol a rest = found at hfirst
        have hlossy (symbol : Symbol) (more : Nat) (hf : First a rest (some (symbol, more))) :
            Lossy (rest.drop more) (lossy (rest.drop more)) :=
          ih _ (by simp at h ⊢; omega) rfl
        cases hfirst with
        | char more hc rest =>
          have htail := hlossy _ _ (.char more hc rest)
          rw [(First.char more hc rest).lossy_cons]
          rw [List.drop_left] at htail ⊢
          rw [← List.cons_append, ← encodes_iff.1 hc]
          exact .char _ htail
        | stray ha =>
          rw [(First.stray ha rest).lossy_cons]
          exact .stray a ha (hlossy _ _ (.stray ha rest))
        | broken more hcut hnext rest =>
          have htail := hlossy _ _ (.broken more hcut hnext rest)
          rw [(First.broken more hcut hnext rest).lossy_cons]
          rw [List.drop_left] at htail ⊢
          exact .broken (a :: more) _ (cut_iff.1 hcut) hnext htail
        | incomplete hcut =>
          rw [lossy_of_cut hcut]
          exact .incomplete _ (cut_iff.1 hcut)

end Stylesheet.Utf8
