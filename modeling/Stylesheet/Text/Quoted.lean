import Stylesheet.Text.WordChar

set_option autoImplicit false

/-! # Quoted text, parentheses and addresses

Braces, semicolons and comment openers inside a string are content, so the scanner asks of the
text it holds whether its end lies in a string (`insideString`), how many parentheses are open
there (`openParens`) and whether an unquoted address is being read (`insideUrl`).

Strings are tracked in two ways. `insideString` knows the backslash: the character after one is
never a quote. The other functions pair up quotes without looking at backslashes
(`nextQuote`). -/

namespace Stylesheet.Text

def isQuote (c : Char) : Bool := c == '"' || c == '\''

/-! ## Strings with escapes -/

/-- Where a text has got to: the quote of the open string, if any, and whether the last character
was a backslash that takes effect. -/
structure Quoting where
  opened : Option Char := none
  escape : Bool := false
deriving DecidableEq, Repr

/-- One more character. -/
def Quoting.next (q : Quoting) (c : Char) : Quoting :=
  if q.escape then { q with escape := false }
  else if c = '\\' then { q with escape := true }
  else match q.opened with
    | some quote => if c = quote then {} else q
    | none => if isQuote c then { opened := some c } else q

/-- The end of the text lies inside a string. -/
def insideString (cs : List Char) : Bool := (cs.foldl Quoting.next {}).opened.isSome

/-! ## Quotes without escapes -/

/-- The open quote after one more character: a quote opens a string, and the same quote ends
it. -/
def nextQuote (opened : Option Char) (c : Char) : Option Char :=
  match opened with
  | some quote => if c = quote then none else opened
  | none => if isQuote c then some c else none

/-- Open quote and number of open parentheses. -/
structure Nesting where
  quote : Option Char := none
  depth : Nat := 0
deriving DecidableEq, Repr

/-- One more character; a closing parenthesis that closes nothing is ignored. -/
def Nesting.next (n : Nesting) (c : Char) : Nesting where
  quote := nextQuote n.quote c
  depth :=
    if n.quote.isSome then n.depth
    else if c = '(' then n.depth + 1
    else if c = ')' then n.depth - 1
    else n.depth

/-- The number of parentheses left open by the text, strings apart. -/
def openParens (cs : List Char) : Nat := (cs.foldl Nesting.next {}).depth

/-- The characters read, latest first, the open quote, and for each open parenthesis, innermost
first, whether it belongs to an address. -/
structure Addressing where
  before : List Char := []
  quote : Option Char := none
  parens : List Bool := []
deriving DecidableEq, Repr

/-- The text (latest character first) ends in `url`, in any letter case. -/
def endsInUrl (before : List Char) : Bool :=
  sameIgnoringCase (before.take 3) ['l', 'r', 'u']

/-- One more character. -/
def Addressing.next (a : Addressing) (c : Char) : Addressing where
  before := c :: a.before
  quote := nextQuote a.quote c
  parens :=
    if a.quote.isSome then a.parens
    else if c = '(' then endsInUrl a.before :: a.parens
    else if c = ')' then a.parens.tail
    else a.parens

/-- The innermost open parenthesis is that of an unquoted `url(`, where `/*` belongs to the
address. -/
def insideUrl (cs : List Char) : Bool := (cs.foldl Addressing.next {}).parens.head?.getD false

/-! ## Masking strings -/

/-- The text with every ASCII character inside a string turned into a space, given the quote that
is open at its start. The quotes themselves stay. -/
def maskFrom (opened : Option Char) : List Char → List Char
  | [] => []
  | c :: cs =>
    (if opened.isSome && opened != some c && isAscii c then ' ' else c) ::
      maskFrom (nextQuote opened c) cs

/-- The text with the content of its strings blanked out; byte offsets stay the same, because
characters of more than one byte are kept. -/
def maskQuoted (cs : List Char) : List Char := maskFrom none cs

end Stylesheet.Text
