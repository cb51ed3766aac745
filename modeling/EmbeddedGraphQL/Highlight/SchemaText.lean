import EmbeddedGraphQL.Document.Parser
import EmbeddedGraphQL.Document.Outline
import EmbeddedGraphQL.Document.NameUse
import EmbeddedGraphQL.Text.Slice

/-!
Tokens of a text that defines types. They cover the text: what lies between symbols is blank, and
once the text cannot be read any further the rest of it is one invalid token. Names have the style
of what they name if the text is a document.
-/
namespace EmbeddedGraphQL.SchemaText

def keywords : List String :=
  ["type", "interface", "union", "scalar", "enum", "implements", "input", "schema", "extend",
    "directive", "repeatable", "on", "query", "mutation", "subscription"]

def builtinValues : List String := ["true", "false", "null"]

/-- Text without quotation marks around it and without a meaning of its own. -/
def plainStyle : Style := .other ""

/-- The style of a symbol, and the kind of node that it names. -/
def classify (uses : List NameUse) (s : Symbol) : Style × Option String :=
  match s.kind with
  | .name =>
    match uses.find? (·.start == s.start) with
    | some use => (use.style, some use.kind)
    | none =>
      if keywords.contains s.value then (.keyword, none)
      else if builtinValues.contains s.value then (.builtin, none)
      else (plainStyle, none)
  | .string | .blockString => (.string, none)
  | .int | .float => (.number, none)
  | .punctuator => (.punctuation, none)

/-- The token over a range of the text. -/
def token (text : List Char) (style : Style) (kind : Option String) (start stop : Nat) : Token :=
  ⟨Text.slice text start stop, style, start, stop, none, kind⟩

/-- The blank token over a range, none if the range is empty. -/
def gap (text : List Char) (start stop : Nat) : List Token :=
  if start < stop then [token text .blank none start stop] else []

/-- The tokens from `position` on, of which `symbols` are still to come. -/
def tokensFrom (text : List Char) (uses : List NameUse) (broken : Bool) (position : Nat) :
    List Symbol → List Token
  | [] =>
    if position < text.length then
      [token text (if broken then .invalid else .blank) none position text.length]
    else []
  | s :: rest =>
    let (style, kind) := classify uses s
    gap text position s.start ++
      token text style kind s.start s.stop :: tokensFrom text uses broken s.stop rest

/-- The tokens of a text. -/
def tokens (text : List Char) (uses : List NameUse) : List Token :=
  let symbols := SymbolList.ofText text
  tokensFrom text uses symbols.problem.isSome 0 symbols.symbols

/-- Tokens and document of a text, and whether it is a document at all. -/
structure Reading where
  tokens : List Token
  outline : Json
  isDocument : Bool

def read (text : List Char) : Reading :=
  match Document.parse text with
  | .ok document =>
    ⟨tokens text (NameUse.ofDocument document), Outline.document true document, true⟩
  | .error _ => ⟨tokens text [], Outline.unreadable, false⟩

end EmbeddedGraphQL.SchemaText
