import Stylesheet.Finding
import Stylesheet.Json.Quote

set_option autoImplicit false

/-! # Tokens and findings as JSON

The written form of the token stream: one JSON object without blanks for each token or finding. A
token has its type, its value and its span; the numbers that link tokens are not written. -/

namespace Stylesheet

def Position.toJson (p : Position) : String :=
  Json.objectOf [("line", toString p.line), ("column", toString p.column)]

/-- The value of a token that is no block. -/
def Leaf.toJson : Leaf → String
  | selector text _ => Json.quote text
  | property name value =>
    Json.objectOf [("name", Json.quote name), ("value", Json.quoteOption value)]
  | atRule name value isBlock =>
    Json.objectOf [("name", Json.quote name), ("value", Json.quoteOption value),
      ("isBlock", if isBlock then "true" else "false")]
  | comment text => Json.quote text
  | whitespace text => Json.quote text

/-- A token from its value, which is written already. -/
def Placement.toJson (place : Placement) (type : TokenType) (value : String) : String :=
  Json.objectOf [("type", Json.quote type.name), ("value", value),
    ("start", place.start.toJson), ("end", place.stop.toJson)]

mutual

def Token.toJson : Token → String
  | .leaf place content => place.toJson content.type content.toJson
  | .block place children => place.toJson .block (Json.arrayOf (Token.listToJson children))

/-- The written forms of the tokens of a sequence. -/
def Token.listToJson : List Token → List String
  | [] => []
  | t :: ts => t.toJson :: Token.listToJson ts

end

def Finding.toJson (f : Finding) : String :=
  Json.objectOf [("key", Json.quote f.key.name), ("message", Json.quote f.message),
    ("start", f.start.toJson), ("end", f.stop.toJson)]

def Item.toJson : Item → String
  | token t => t.toJson
  | finding f => f.toJson

end Stylesheet
