set_option autoImplicit false

/-! # Characters shown in a message

A message that names a single character must show it even when it cannot be seen: printable ASCII
stands for itself, the usual control characters, quotes and the backslash have a short form, and
everything else is shown by its code point. -/

namespace Stylesheet.Text

/-- The code point in lower-case hexadecimal, without leading zeros. -/
def hexadecimal (n : Nat) : String := String.ofList (Nat.toDigits 16 n)

/-- The visible form of a character. -/
def escaped (c : Char) : String :=
  if c = '\t' then "\\t"
  else if c = '\r' then "\\r"
  else if c = '\n' then "\\n"
  else if c = '\'' then "\\'"
  else if c = '"' then "\\\""
  else if c = '\\' then "\\\\"
  else if 0x20 ≤ c.toNat ∧ c.toNat ≤ 0x7E then String.singleton c
  else "\\u\x7b" ++ hexadecimal c.toNat ++ "\x7d"

end Stylesheet.Text
