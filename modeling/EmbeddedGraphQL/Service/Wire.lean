import EmbeddedGraphQL.Json.Basic
import EmbeddedGraphQL.Highlight.Token
import EmbeddedGraphQL.Embedding.Answer
import EmbeddedGraphQL.Completion.Offer
import EmbeddedGraphQL.Schema.Documentation

/-!
How answers look to an editor. Parts of tokens, completions and diagnostics that are missing are
left out; in documentation they are null.
-/
namespace EmbeddedGraphQL

/-- A member that is left out if there is no value. -/
def Json.optional (key : String) (value : Option Json) : List (String × Json) :=
  match value with
  | some value => [(key, value)]
  | none => []

def Json.text (s : List Char) : Json := .str (String.ofList s)

def Position.toJson (p : Position) : Json := .obj [("line", .int p.line), ("ch", .int p.ch)]

def Token.toJson (t : Token) : Json :=
  .obj ([("text", .text t.text), ("type", .str t.style.name), ("start", .int t.start),
    ("end", .int t.stop)] ++ Json.optional "scope" (t.scope.map .int) ++
    Json.optional "kind" (t.kind.map .str))

def Diagnostic.toJson (d : Diagnostic) : Json :=
  .obj [("from", d.start.toJson), ("to", d.stop.toJson), ("message", .str d.message),
    ("severity", .str d.severity)]

def Hint.toJson (h : Hint) : Json :=
  .obj ([("text", .str h.text)] ++ Json.optional "type" (h.type.map .str) ++
    Json.optional "description" (h.description.map .str) ++ [("relay", .bool h.relay)])

def HintList.toJson (h : HintList) : Json :=
  .obj ([("hints", .arr (h.hints.map Hint.toJson))] ++
    Json.optional "from" (h.start.map Position.toJson) ++
    Json.optional "to" (h.stop.map Position.toJson))

def ErrorPlace.toJson (p : ErrorPlace) : Json :=
  .obj (Json.optional "line" (p.line.map .int) ++ Json.optional "column" (p.column.map .int))

/-- What is known of the name under a cursor. -/
def Completion.NameDoc.toJson (doc : Completion.NameDoc) : Json :=
  .obj ([("type", .str doc.type)] ++ Json.optional "description" (doc.description.map .str))

private def describedJson (name : String) (type : TypeExpr) (description : Option String) : Json :=
  .obj [("name", .str name), ("type", .str type.text), ("description", Json.ofOption description)]

def FieldDoc.toJson (f : FieldDoc) : Json :=
  .obj [("name", .str f.name),
    ("args", .arr (f.arguments.map fun i => describedJson i.name i.type i.description)),
    ("type", .str f.type.text), ("description", Json.ofOption f.description)]

/-- The documentation of one field by itself. -/
def FieldDoc.summary (f : FieldDoc) : Json :=
  .obj [("type", .str f.type.text), ("description", Json.ofOption f.description)]

def TypeDoc.toJson (doc : TypeDoc) : Json :=
  .obj [("type", .str doc.type), ("description", Json.ofOption doc.description),
    ("interfaces", .arr (doc.interfaces.map .str)),
    ("implementations", .arr (doc.implementations.map .str)),
    ("fields", .arr (doc.fields.map FieldDoc.toJson))]

/-- Documentation that may be missing; then the answer is empty. -/
def Json.orEmpty (value : Option Json) : Json := value.getD (.obj [])

end EmbeddedGraphQL
