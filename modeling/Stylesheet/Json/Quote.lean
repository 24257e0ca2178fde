import Stylesheet.Text.Escape

set_option autoImplicit false

/-! # Writing JSON strings

Only what has to be escaped is: the quote, the backslash and the control characters, of which five
have a short form. Every other character stands for itself. -/

namespace Stylesheet.Json

/-- The code point in four hexadecimal digits, for code points below `0x100`. -/
def hexByte (n : Nat) : String :=
  if n < 0x10 then "000" ++ Text.hexadecimal n else "00" ++ Text.hexadecimal n

/-- A character inside a JSON string. -/
def quoteChar (c : Char) : String :=
  match c with
  | '"' => "\\\""
  | '\\' => "\\\\"
  | '\x08' => "\\b"
  | '\x0c' => "\\f"
  | '\n' => "\\n"
  | '\r' => "\\r"
  | '\t' => "\\t"
  | c => if c.toNat < 0x20 then "\\u" ++ hexByte c.toNat else String.singleton c

/-- A text as a JSON string, with its quotes. -/
def quote (s : String) : String :=
  s.toList.foldl (fun text c => text ++ quoteChar c) "\"" ++ "\""

/-- A text as a JSON string, or `null`. -/
def quoteOption : Option String → String
  | some s => quote s
  | none => "null"

/-- An object from its members, whose values are written already. -/
def objectOf (members : List (String × String)) : String :=
  "\x7b" ++ ",".intercalate (members.map fun (name, value) => quote name ++ ":" ++ value) ++ "\x7d"

/-- An array from its elements, which are written already. -/
def arrayOf (elements : List String) : String := "[" ++ ",".intercalate elements ++ "]"

end Stylesheet.Json
