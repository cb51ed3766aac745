import EmbeddedGraphQL.Service.Request
import EmbeddedGraphQL.Service.Wire
import EmbeddedGraphQL.Embedding.Restoration
import EmbeddedGraphQL.Highlight.Tokenizer
import EmbeddedGraphQL.Highlight.SchemaText
import EmbeddedGraphQL.Schema.Printer
import EmbeddedGraphQL.Validation.Lint
import EmbeddedGraphQL.Project.Loader

/-!
The commands of an editor. Commands on a buffer extract its GraphQL document, answer for the
document, and move the answer back; commands on the schema answer from the snapshot in use.
-/
namespace EmbeddedGraphQL

inductive Command where
  | tokens
  | hints
  | tokenDocumentation
  | annotations
  | outline
  | schemaTokens
  | typeDocumentation
  | fieldDocumentation
  | schema
  | schemaWithVersion
  | projectDirectory
  deriving DecidableEq, Repr

/-- The content of an answer: a value, or plain text. -/
inductive Reply where
  | json (content : Json)
  | text (content : String)

def Reply.content : Reply → Json
  | json content => content
  | text content => .str content

def Reply.mediaType : Reply → String
  | json _ => "application/json"
  | text _ => "text/plain"

/-- Why a command has no answer. -/
inductive ServiceFault where
  | lint (failure : Lint.Failure)
  | unwritable (problem : Constant.Unwritable)
  | loading (fault : LoadFault)

namespace Command

def all : List Command :=
  [tokens, hints, tokenDocumentation, annotations, outline, schemaTokens, typeDocumentation,
    fieldDocumentation, schema, schemaWithVersion, projectDirectory]

def name : Command → String
  | tokens => "getTokens"
  | hints => "getHints"
  | tokenDocumentation => "getTokenDocumentation"
  | annotations => "getAnnotations"
  | outline => "getAST"
  | schemaTokens => "getSchemaTokensAndAST"
  | typeDocumentation => "getTypeDocumentation"
  | fieldDocumentation => "getFieldDocumentation"
  | schema => "getSchema"
  | schemaWithVersion => "getSchemaWithVersion"
  | projectDirectory => "setProjectDir"

def ofName? (name : String) : Option Command := all.find? fun command => command.name == name

end Command

namespace Service

abbrev Outcome := Except ServiceFault

/-- The tokens of a buffer, in its own coordinates. -/
def tokens (r : Extraction) : List Token :=
  Restoration.restore r (Highlight.tokenize r.transformed)

/-- Completions at the moved cursor; their place may be null but is never left out. -/
def hints (s : Schema) (r : Extraction) (cursor : Position) : Json :=
  let found := r.hints (Completion.hints s r.transformed (r.cursor cursor))
  let place (p : Option Position) : Json := (p.map Position.toJson).getD .null
  .obj [("hints", .arr (found.hints.map Hint.toJson)), ("from", place found.start),
    ("to", place found.stop)]

def annotations (s : Schema) (r : Extraction) : Outcome (List Diagnostic) :=
  ((Lint.diagnostics s r.transformed).mapError .lint).map r.diagnostics

/-- The syntax tree of an extracted document, or the syntax error with its place moved back. -/
def outline (r : Extraction) : Json :=
  match Document.parse r.transformed with
  | .ok document => Outline.document false document
  | .error e =>
    let (line, column) := sourceLocation r.transformed e.offset
    let place := r.errorPlace ⟨some line, some column⟩
    .obj [("error", .str e.message), ("locations", .arr [place.toJson])]

def schemaTokens (buffer : List Char) : Json :=
  let reading := SchemaText.read buffer
  .obj [("tokens", .arr (reading.tokens.map Token.toJson)), ("ast", reading.outline)]

def schemaText (s : Schema) : Outcome String := (SchemaPrint.schema s).mapError .unwritable

def schemaWithVersion (store : Store) : Outcome Json := do
  let s := store.schema
  let root (name : Option String) : Json := .str (name.getD "")
  return .obj [("schema", .str (← schemaText s)), ("queryType", root s.query),
    ("mutationType", root s.mutation), ("subscriptionType", root s.subscription),
    ("url", .str store.current.url), ("version", .int store.current.version)]

/-- The answer to a command from the schema in use. The project directory has been changed by the
time that it is confirmed. -/
def reply (store : Store) (default : Environment) (request : Request) :
    Command → Outcome Reply :=
  let s := store.schema
  let buffer := request.buffer.toList
  let r := Extraction.ofBuffer (request.environmentOr default) buffer
  fun
  | .tokens => .ok (.json (.obj [("tokens", .arr ((tokens r).map Token.toJson))]))
  | .hints => .ok (.json (hints s r request.cursor))
  | .tokenDocumentation =>
    .ok (.json (Json.orEmpty ((Completion.nameDoc? s r.transformed (r.cursor request.cursor)).map
      Completion.NameDoc.toJson)))
  | .annotations =>
    (annotations s r).map fun found =>
      .json (.obj [("annotations", .arr (found.map Diagnostic.toJson))])
  | .outline => .ok (.json (outline r))
  | .schemaTokens => .ok (.json (schemaTokens buffer))
  | .typeDocumentation =>
    .ok (.json (Json.orEmpty ((s.typeDoc? (request.type.getD "")).map TypeDoc.toJson)))
  | .fieldDocumentation =>
    .ok (.json (Json.orEmpty
      ((s.fieldDoc? (request.type.getD "") (request.field.getD "")).map FieldDoc.summary)))
  | .schema => (schemaText s).map .text
  | .schemaWithVersion => (schemaWithVersion store).map .json
  | .projectDirectory => .ok (.json (.obj [("projectDir", Json.ofOption request.projectDir)]))

/-- What a command logs besides its answer: faults in moving tokens back, and a text that should
define types but cannot be read. -/
def alerts (default : Environment) (request : Request) : Command → List Alert
  | .tokens =>
    let r := Extraction.ofBuffer (request.environmentOr default) request.buffer.toList
    (Restoration.faults r (Highlight.tokenize r.transformed)).map fun _ => .error
  | .schemaTokens =>
    if (SchemaText.read request.buffer.toList).isDocument then [] else [.warning]
  | _ => []

end Service
end EmbeddedGraphQL
