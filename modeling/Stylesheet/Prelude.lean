import Stylesheet.Pattern

set_option autoImplicit false

/-! # The grammars of at-rule preludes

Three at-rules have a prelude with a grammar of its own: the address and conditions of an import,
the name of a character set, and the names of layers. The grammars are patterns; keywords are
written in lower case. -/

namespace Stylesheet.Prelude

open Pattern

def blanks : Pattern := star (char .blank)

def someBlanks : Pattern := plus (char .blank)

def symbol (c : Char) : Pattern := char (.oneOf [c])

/-- Any text without the given characters. -/
def without (chars : List Char) : Pattern := star (char (.outside (.oneOf chars)))

/-- A text without the given characters that is not empty. -/
def someWithout (chars : List Char) : Pattern := plus (char (.outside (.oneOf chars)))

/-! ## Strings and addresses -/

/-- A string between two of the given quotes. -/
def quotedBy (quote : Char) : Pattern := all [symbol quote, without [quote], symbol quote]

def quoted : Pattern := alt (quotedBy '"') (quotedBy '\'')

/-- An address without quotes: no quotes, parentheses or blanks. -/
def bareAddress : Pattern :=
  plus (char (.outside (.either (.oneOf ['"', '\'', '(', ')']) .blank)))

/-- The address of an import: `url(...)` or a string. -/
def importUrl : Pattern :=
  alt (all [literal "url(", blanks, alt quoted bareAddress, blanks, symbol ')']) quoted

/-! ## Layers -/

/-- The first character of a layer's name. -/
def nameStart : CharClass := .either .letter (.oneOf ['_', '-'])

/-- One part of a layer's name. -/
def layerPart : Pattern := seq (char nameStart) (star (char (.either .word (.oneOf ['-']))))

/-- The parts of a layer's name, with points between them. -/
def layerName : Pattern := separated (symbol '.') layerPart

def comma : Pattern := all [blanks, symbol ',', blanks]

/-- The prelude of a layer rule. -/
def layerNames : Pattern := separated comma layerName

/-! ## Conditions of an import -/

/-- Text in parentheses without parentheses in it. -/
def parenthesized : Pattern := all [symbol '(', someWithout ['(', ')'], symbol ')']

/-- A media type with features, or features alone. -/
def mediaQuery : Pattern :=
  alt
    (all [optional (seq (alt (literal "only") (literal "not")) someBlanks),
      plus (char (.either .letter (.oneOf ['-']))),
      star (all [someBlanks, literal "and", someBlanks, parenthesized])])
    (seq parenthesized
      (star (all [someBlanks, alt (literal "and") (literal "or"), someBlanks, parenthesized])))

def mediaQueries : Pattern := separated comma mediaQuery

/-- The layer an import goes to, which may be left without a name. -/
def importLayer : Pattern :=
  seq (literal "layer")
    (optional (all [symbol '(', blanks, char nameStart,
      star (char (.either .word (.oneOf ['.', '-']))), blanks, symbol ')']))

/-- What an import requires to be supported; parentheses nest once. -/
def importSupports : Pattern :=
  all [literal "supports(",
    plus (alt (char (.outside (.oneOf ['(', ')'])))
      (all [symbol '(', without ['(', ')'], symbol ')'])),
    symbol ')']

/-- What may follow the address of an import. -/
def importConditions : Pattern :=
  all [optional importLayer, blanks, optional importSupports, blanks, optional mediaQueries]

/-! ## Commas -/

/-- The text begins with a comma after any number of blanks. -/
def beginsWithComma (cs : List Char) : Bool := (Text.trimStart cs).head? == some ','

/-- Two commas with nothing but blanks between them. -/
def hasAdjacentCommas : List Char → Bool
  | [] => false
  | c :: cs => (c == ',' && beginsWithComma cs) || hasAdjacentCommas cs

end Stylesheet.Prelude
