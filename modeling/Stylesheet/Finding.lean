import Stylesheet.Token
import Stylesheet.Text.Escape

set_option autoImplicit false

/-! # Findings

A finding is something wrong with a stylesheet: what is wrong (an `Issue`) and the span of source
it is about. Issues are the causes; each belongs to one of ten classes (`FindingKey`), whose names
are fixed for those who read reports, and has one wording, `Issue.message`. -/

namespace Stylesheet

/-- The classes of findings. -/
inductive FindingKey where
  /-- A token or block was still open at the end of the source. -/
  | unclosedToken
  /-- Text at the end of the source that never became a token. -/
  | unexpectedCharacterEndOfContent
  /-- Selector text outside the selector alphabet, or a doubled or unbalanced part of it. -/
  | unexpectedSelectorCharacter
  /-- An unknown or malformed declaration. -/
  | invalidPropertyDeclaration
  /-- Text in a block that is neither a declaration nor a nested rule. -/
  | unexpectedCharacterInBlockContent
  /-- Indentation by a character that is not allowed. -/
  | invalidIndentationCharacter
  /-- Reserved. -/
  | mixedIndentation
  /-- Reserved. -/
  | invalidIndentationSize
  /-- An unknown or missing at-rule name. -/
  | invalidAtRuleDeclaration
  /-- An at-rule whose prelude does not follow its grammar. -/
  | invalidAtRuleValue
deriving DecidableEq, Repr

namespace FindingKey

def all : List FindingKey :=
  [unclosedToken, unexpectedCharacterEndOfContent, unexpectedSelectorCharacter,
   invalidPropertyDeclaration, unexpectedCharacterInBlockContent, invalidIndentationCharacter,
   mixedIndentation, invalidIndentationSize, invalidAtRuleDeclaration, invalidAtRuleValue]

def name : FindingKey → String
  | unclosedToken => "unclosed_token"
  | unexpectedCharacterEndOfContent => "unexpected_character_end_of_content"
  | unexpectedSelectorCharacter => "unexpected_selector_character"
  | invalidPropertyDeclaration => "invalid_property_declaration"
  | unexpectedCharacterInBlockContent => "unexpected_character_in_block_content"
  | invalidIndentationCharacter => "invalid_indentation_character"
  | mixedIndentation => "mixed_indentation"
  | invalidIndentationSize => "invalid_indentation_size"
  | invalidAtRuleDeclaration => "invalid_at_rule_declaration"
  | invalidAtRuleValue => "invalid_at_rule_value"

theorem mem_all (key : FindingKey) : key ∈ all := by
  cases key <;> decide

theorem name_injective {a b : FindingKey} (h : a.name = b.name) : a = b := by
  revert h
  cases a <;> cases b <;> decide

/-- The class with the given name. -/
def ofName? (name : String) : Option FindingKey := all.find? (·.name == name)

end FindingKey

/-- What is wrong. -/
inductive Issue where
  /-- A token or block that the source ends without closing. -/
  | unclosed (type : TokenType)
  /-- Text left over at the end of the source. -/
  | leftover (text : String)
  /-- Text in a block that ends in a semicolon or brace without having been a declaration. -/
  | strayContent (text : String)
  /-- A closing brace where no block is open. -/
  | strayBrace
  /-- A selector with a character outside the selector alphabet. -/
  | forbiddenCharacter (char : Char) (selector : String)
  /-- A header that is no selector although all its characters could be. -/
  | unclaimedSelector (selector : String)
  /-- A structural character written twice in a row. -/
  | doubledCharacter (pair : String) (selector : String)
  | unbalancedParentheses (selector : String)
  | indentationCharacter (char : Char)
  | emptyAtRuleName
  | unknownAtRule (name : String)
  | importWithoutUrl
  | importUrl (value : String)
  | importConditions (conditions : String)
  | charsetWithoutValue
  | charsetValue (value : String)
  | layerWithoutName
  | layerEndingInComma (value : String)
  | layerWithAdjacentCommas (value : String)
  | layerNames (value : String)
  | emptyPropertyName
  | customPropertyName (name : String)
  | propertyName (name : String)
  | propertyOutsideBlock (name : String)
  | unknownDescriptor (name : String) (atRule : String)
  | unknownProperty (name : String)
  | emptyPropertyValue (name : String)
  /-- A finding worded by whoever reports it. -/
  | remark (key : FindingKey) (text : String)
deriving DecidableEq, Repr

namespace Issue

def key : Issue → FindingKey
  | unclosed _ => .unclosedToken
  | leftover _ => .unexpectedCharacterEndOfContent
  | strayContent _ | strayBrace => .unexpectedCharacterInBlockContent
  | forbiddenCharacter .. | unclaimedSelector _ | doubledCharacter .. | unbalancedParentheses _ =>
    .unexpectedSelectorCharacter
  | indentationCharacter _ => .invalidIndentationCharacter
  | emptyAtRuleName | unknownAtRule _ => .invalidAtRuleDeclaration
  | importWithoutUrl | importUrl _ | importConditions _ | charsetWithoutValue | charsetValue _
  | layerWithoutName | layerEndingInComma _ | layerWithAdjacentCommas _ | layerNames _ =>
    .invalidAtRuleValue
  | emptyPropertyName | customPropertyName _ | propertyName _ | propertyOutsideBlock _
  | unknownDescriptor .. | unknownProperty _ | emptyPropertyValue _ => .invalidPropertyDeclaration
  | remark key _ => key

def quoted (text : String) : String := "\"" ++ text ++ "\""

def message : Issue → String
  | unclosed type => "Unclosed " ++ quoted type.name ++ " detected"
  | leftover text => "Unexpected content " ++ quoted text ++ " at end of input"
  | strayContent text => "Unexpected content " ++ quoted text ++ " in block"
  | strayBrace => "Unexpected " ++ quoted "\x7d" ++ " outside of any block"
  | forbiddenCharacter char selector =>
    "Unexpected character " ++ quoted (String.singleton char) ++ " in selector " ++ quoted selector
  | unclaimedSelector selector => "Unexpected selector " ++ quoted selector
  | doubledCharacter pair selector =>
    "Unexpected " ++ quoted pair ++ " in selector " ++ quoted selector
  | unbalancedParentheses selector => "Unbalanced parentheses in selector " ++ quoted selector
  | indentationCharacter char => "Unexpected char " ++ quoted (Text.escaped char)
  | emptyAtRuleName => "At-rule name is empty"
  | unknownAtRule name => "Unknown at-rule " ++ quoted name
  | importWithoutUrl => "@import requires a URL"
  | importUrl value => "Invalid @import URL in " ++ quoted value
  | importConditions conditions => "Invalid @import conditions " ++ quoted conditions
  | charsetWithoutValue => "@charset value must be a single quoted string"
  | charsetValue value => "@charset value must be a single quoted string, got " ++ quoted value
  | layerWithoutName => "@layer requires a layer name"
  | layerEndingInComma value => "@layer names must not end with a comma: " ++ quoted value
  | layerWithAdjacentCommas value =>
    "@layer names must not contain consecutive commas: " ++ quoted value
  | layerNames value => "Invalid @layer name list " ++ quoted value
  | emptyPropertyName => "Property name is empty"
  | customPropertyName name => "Invalid custom property name " ++ quoted name
  | propertyName name => "Invalid property name " ++ quoted name
  | propertyOutsideBlock name => "Property " ++ quoted name ++ " must be inside a block"
  | unknownDescriptor name atRule =>
    "Unknown property " ++ quoted name ++ " in at-rule " ++ quoted atRule
  | unknownProperty name => "Unknown property " ++ quoted name
  | emptyPropertyValue name => "Property " ++ quoted name ++ " value is empty"
  | remark _ text => text

end Issue

/-- An issue and the span `[start, stop)` it is about. -/
structure Finding where
  issue : Issue
  start : Position
  stop : Position
deriving DecidableEq, Repr

namespace Finding

/-- A finding about `[start, stop)`, which is made at least one column wide. -/
def spanning (issue : Issue) (start stop : Position) : Finding :=
  { issue, start, stop := start.widen stop }

/-- A finding of the given class and wording, from checks outside this library. -/
def worded (key : FindingKey) (text : String) (start stop : Position) : Finding :=
  spanning (.remark key text) start stop

def key (f : Finding) : FindingKey := f.issue.key

def message (f : Finding) : String := f.issue.message

/-- The message with the place it is about. -/
def toText (f : Finding) : String :=
  f.message ++ " at line " ++ toString f.start.line ++ ", column " ++ toString f.start.column

theorem start_lt_stop_spanning (issue : Issue) (start stop : Position) :
    (spanning issue start stop).start < (spanning issue start stop).stop :=
  Position.lt_widen start stop

/-- Whatever a finding is about, a report of it reads like a finding worded by somebody else. -/
theorem reads_as_worded (f : Finding) (h : f.start < f.stop) :
    let g := worded f.key f.message f.start f.stop
    g.key = f.key ∧ g.toText = f.toText ∧ g.start = f.start ∧ g.stop = f.stop :=
  ⟨rfl, rfl, rfl, Position.widen_of_lt h⟩

end Finding

/-- What a scan produces: tokens of the outermost sequence, and structural findings. -/
inductive Item where
  | token (t : Token)
  | finding (f : Finding)
deriving DecidableEq, Repr

end Stylesheet
