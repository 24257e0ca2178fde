set_option autoImplicit false

/-! # Decoding UTF-8

Bytes are decoded into *symbols*: a character, or the mark of a sequence that is not UTF-8. An
invalid sequence is as long as it can be while still being the beginning of some character, and
at least one byte. Bytes at the end that begin a character without finishing it are handed back,
because more input may complete them. -/

namespace Stylesheet.Utf8

/-- The character shown for bytes that are not UTF-8. -/
def replacement : Char := '\uFFFD'

/-- How many bytes the character begun by `lead` takes; zero when no character begins so. -/
def width (lead : UInt8) : Nat :=
  if lead < 0x80 then 1
  else if lead < 0xC2 then 0
  else if lead < 0xE0 then 2
  else if lead < 0xF0 then 3
  else if lead < 0xF5 then 4
  else 0

/-- A byte that continues a character. -/
def isTail (b : UInt8) : Bool := 0x80 ≤ b && b < 0xC0

/-- A byte that may stand second after `lead`. Four leads narrow the choice, which keeps out
overlong forms, surrogates and code points past the last one. -/
def isSecond (lead b : UInt8) : Bool :=
  if lead == 0xE0 then 0xA0 ≤ b && b < 0xC0
  else if lead == 0xED then 0x80 ≤ b && b < 0xA0
  else if lead == 0xF0 then 0x90 ≤ b && b < 0xC0
  else if lead == 0xF4 then 0x80 ≤ b && b < 0x90
  else isTail b

/-- The six bits a continuing byte carries. -/
def tailBits (b : UInt8) : Nat := b.toNat % 0x40

def char2 (a b : UInt8) : Char := Char.ofNat (a.toNat % 0x20 * 0x40 + tailBits b)

def char3 (a b c : UInt8) : Char :=
  Char.ofNat ((a.toNat % 0x10 * 0x40 + tailBits b) * 0x40 + tailBits c)

def char4 (a b c d : UInt8) : Char :=
  Char.ofNat (((a.toNat % 0x08 * 0x40 + tailBits b) * 0x40 + tailBits c) * 0x40 + tailBits d)

/-- A character, or `none` for a sequence that is not UTF-8. -/
abbrev Symbol := Option Char

/-- The symbol begun by the byte `a` with `rest` after it, and how many bytes of `rest` belong to
it; `none` when `rest` ends before that is decided. -/
def firstSymbol (a : UInt8) (rest : List UInt8) : Option (Symbol × Nat) :=
  match width a with
  | 1 => some (some (Char.ofNat a.toNat), 0)
  | 2 =>
    match rest with
    | [] => none
    | b :: _ => if isTail b then some (some (char2 a b), 1) else some (none, 0)
  | 3 =>
    match rest with
    | [] => none
    | b :: rest =>
      if isSecond a b then
        match rest with
        | [] => none
        | c :: _ => if isTail c then some (some (char3 a b c), 2) else some (none, 1)
      else some (none, 0)
  | 4 =>
    match rest with
    | [] => none
    | b :: rest =>
      if isSecond a b then
        match rest with
        | [] => none
        | c :: rest =>
          if isTail c then
            match rest with
            | [] => none
            | d :: _ => if isTail d then some (some (char4 a b c d), 3) else some (none, 2)
          else some (none, 1)
      else some (none, 0)
  | _ => some (none, 0)

/-- Decodes bytes onto the symbols already decoded, passing over the first `skip` bytes, which
belong to the last of them. The second part of the answer is the unfinished character at the end,
if there is one. -/
def decodeOnto (symbols : Array Symbol) : (skip : Nat) → List UInt8 → Array Symbol × List UInt8
  | _, [] => (symbols, [])
  | skip + 1, _ :: rest => decodeOnto symbols skip rest
  | 0, a :: rest =>
    match firstSymbol a rest with
    | none => (symbols, a :: rest)
    | some (symbol, more) => decodeOnto (symbols.push symbol) more rest

/-- The symbols decoded before are kept as they are. -/
theorem decodeOnto_eq_append (symbols : Array Symbol) (skip : Nat) (bytes : List UInt8) :
    decodeOnto symbols skip bytes =
      (symbols ++ (decodeOnto #[] skip bytes).1, (decodeOnto #[] skip bytes).2) := by
  induction bytes generalizing symbols skip with
  | nil => cases skip <;> simp [decodeOnto]
  | cons a rest ih =>
    cases skip with
    | succ skip =>
      simp only [decodeOnto]
      exact ih symbols skip
    | zero =>
      simp only [decodeOnto]
      cases firstSymbol a rest with
      | none => simp
      | some found =>
        obtain ⟨symbol, more⟩ := found
        simp only
        rw [ih (symbols.push symbol) more, ih (#[].push symbol) more]
        simp

/-- The symbols of a byte sequence, and the unfinished character at its end. -/
def decode (bytes : List UInt8) : List Symbol × List UInt8 :=
  let (symbols, rest) := decodeOnto #[] 0 bytes
  (symbols.toList, rest)

/-- The characters of a byte sequence that is UTF-8 throughout. -/
def decodeStrict? (bytes : List UInt8) : Option (List Char) :=
  match decode bytes with
  | (symbols, []) => symbols.mapM id
  | (_, _ :: _) => none

end Stylesheet.Utf8
