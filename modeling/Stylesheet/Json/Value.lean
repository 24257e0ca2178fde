set_option autoImplicit false

/-! # Reading JSON

A strict reader for the JSON values a configuration is made of: everything but numbers, which no
configuration holds. Blanks are the four of the format, a string may hold no control character,
an escaped surrogate must be one half of a pair, and nothing may follow the value. The members of
an object are kept as they come, repetitions included. -/

namespace Stylesheet.Json

inductive Value where
  | null
  | bool (b : Bool)
  | string (s : String)
  | array (elements : List Value)
  | object (members : List (String × Value))
deriving Repr

/-- A reader takes something from the beginning of a text and leaves the rest. -/
abbrev Reader (α : Type) := List Char → Option (α × List Char)

/-! ## Strings -/

def isSpace (c : Char) : Bool := c == ' ' || c == '\t' || c == '\n' || c == '\r'

def skipSpace (cs : List Char) : List Char := cs.dropWhile isSpace

/-- The value of a hexadecimal digit in either case. -/
def hexDigit? (c : Char) : Option Nat :=
  let n := c.toNat
  if 0x30 ≤ n ∧ n ≤ 0x39 then some (n - 0x30)
  else if 0x41 ≤ n ∧ n ≤ 0x46 then some (n - 0x41 + 10)
  else if 0x61 ≤ n ∧ n ≤ 0x66 then some (n - 0x61 + 10)
  else none

/-- Four hexadecimal digits. -/
def hex4 : Reader Nat
  | a :: b :: c :: d :: rest => do
    let a ← hexDigit? a
    let b ← hexDigit? b
    let c ← hexDigit? c
    let d ← hexDigit? d
    return (((a * 16 + b) * 16 + c) * 16 + d, rest)
  | _ => none

def isHighSurrogate (n : Nat) : Bool := 0xD800 ≤ n && n < 0xDC00

def isLowSurrogate (n : Nat) : Bool := 0xDC00 ≤ n && n < 0xE000

/-- The character after `\u`, which may take two escapes. -/
def unicodeEscape (cs : List Char) : Option (Char × List Char) := do
  let (high, rest) ← hex4 cs
  if isHighSurrogate high then
    match rest with
    | '\\' :: 'u' :: rest =>
      let (low, rest) ← hex4 rest
      if isLowSurrogate low then
        return (Char.ofNat (0x10000 + (high - 0xD800) * 0x400 + (low - 0xDC00)), rest)
      else none
    | _ => none
  else if isLowSurrogate high then none
  else return (Char.ofNat high, rest)

/-- The character that `\c` stands for, for the escapes of two characters. -/
def shortEscape? (c : Char) : Option Char :=
  match c with
  | '"' => some '"'
  | '\\' => some '\\'
  | '/' => some '/'
  | 'b' => some '\x08'
  | 'f' => some '\x0c'
  | 'n' => some '\n'
  | 'r' => some '\r'
  | 't' => some '\t'
  | _ => none

/-- The characters of a string up to its closing quote, given those already read, latest first.
Each step uses up at least one character, so the length of the text is enough fuel. -/
def stringFrom : (fuel : Nat) → (read : List Char) → Reader String
  | 0, _, _ => none
  | _, _, [] => none
  | fuel + 1, read, c :: cs =>
    if c = '"' then some (String.ofList read.reverse, cs)
    else if c = '\\' then
      match cs with
      | 'u' :: rest => do
        let (c, rest) ← unicodeEscape rest
        stringFrom fuel (c :: read) rest
      | e :: rest => do
        let c ← shortEscape? e
        stringFrom fuel (c :: read) rest
      | [] => none
    else if c.toNat < 0x20 then none
    else stringFrom fuel (c :: read) cs

/-- A string with its quotes. -/
def string : Reader String
  | '"' :: cs => stringFrom (cs.length + 1) [] cs
  | _ => none

/-! ## Values -/

mutual

/-- A value, with blanks allowed before it. -/
def value : (fuel : Nat) → Reader Value
  | 0, _ => none
  | fuel + 1, cs =>
    match skipSpace cs with
    | 'n' :: 'u' :: 'l' :: 'l' :: rest => some (.null, rest)
    | 't' :: 'r' :: 'u' :: 'e' :: rest => some (.bool true, rest)
    | 'f' :: 'a' :: 'l' :: 's' :: 'e' :: rest => some (.bool false, rest)
    | '"' :: rest => do
      let (s, rest) ← string ('"' :: rest)
      return (.string s, rest)
    | '[' :: rest => do
      let (elements, rest) ←
        match skipSpace rest with
        | ']' :: rest => some ([], rest)
        | rest => elements fuel rest
      return (.array elements, rest)
    | '{' :: rest => do
      let (members, rest) ←
        match skipSpace rest with
        | '}' :: rest => some ([], rest)
        | rest => members fuel rest
      return (.object members, rest)
    | _ => none

/-- At least one element, and the bracket that closes the array. -/
def elements : (fuel : Nat) → Reader (List Value)
  | 0, _ => none
  | fuel + 1, cs => do
    let (first, rest) ← value fuel cs
    match skipSpace rest with
    | ']' :: rest => return ([first], rest)
    | ',' :: rest => do
      let (more, rest) ← elements fuel rest
      return (first :: more, rest)
    | _ => none

/-- At least one member, and the brace that closes the object. -/
def members : (fuel : Nat) → Reader (List (String × Value))
  | 0, _ => none
  | fuel + 1, cs => do
    let (name, rest) ← string (skipSpace cs)
    match skipSpace rest with
    | ':' :: rest => do
      let (first, rest) ← value fuel rest
      match skipSpace rest with
      | '}' :: rest => return ([(name, first)], rest)
      | ',' :: rest => do
        let (more, rest) ← members fuel rest
        return ((name, first) :: more, rest)
      | _ => none
    | _ => none

end

/-- The value that a whole text spells. Every step of the reader into a value or past a comma uses
up a character, which bounds the fuel. -/
def parse? (text : List Char) : Option Value := do
  let (v, rest) ← value (2 * text.length + 2) text
  if (skipSpace rest).isEmpty then return v else none

end Stylesheet.Json
