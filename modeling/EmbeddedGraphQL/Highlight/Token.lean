/-!
Highlighted tokens of a buffer. A token names its place by offsets, which may be any integers: the
tokens of another tool are taken as they come.
-/
namespace EmbeddedGraphQL

/-- How a token is shown. -/
inductive Style where
  | blank
  | punctuation
  | comment
  | string
  | number
  | variable
  | directive
  | keyword
  | definition
  | property
  | attribute
  | atom
  | builtin
  | enumValue
  | invalid
  | openQuote
  | closeQuote
  | template
  | other (name : String)
  deriving DecidableEq, Repr, Inhabited

namespace Style

def name : Style → String
  | .blank => "ws"
  | .punctuation => "punctuation"
  | .comment => "comment"
  | .string => "string"
  | .number => "number"
  | .variable => "variable"
  | .directive => "meta"
  | .keyword => "keyword"
  | .definition => "def"
  | .property => "property"
  | .attribute => "attribute"
  | .atom => "atom"
  | .builtin => "builtin"
  | .enumValue => "string-2"
  | .invalid => "invalidchar"
  | .openQuote => "open_quote"
  | .closeQuote => "close_quote"
  | .template => "template-fragment"
  | .other name => name

def named : List Style :=
  [.blank, .punctuation, .comment, .string, .number, .variable, .directive, .keyword, .definition,
    .property, .attribute, .atom, .builtin, .enumValue, .invalid, .openQuote, .closeQuote,
    .template]

/-- The style with a name; an unknown name is a style of its own. -/
def ofName (name : String) : Style := (named.find? (·.name == name)).getD (.other name)

end Style

/-- A piece of text with its place, its style, the depth of brackets after it, and the name of the
bracket or definition it lies in. -/
structure Token where
  text : List Char
  style : Style
  start : Int
  stop : Int
  scope : Option Int
  kind : Option String
  deriving DecidableEq, Repr, Inhabited

end EmbeddedGraphQL
