import EmbeddedGraphQL.Schema.Documentation
import EmbeddedGraphQL.Schema.Standard
import EmbeddedGraphQL.Highlight.Grammar

/-!
The type that is selected from at a place in a half-typed document. It is found by going down from
the root or the type condition through the open selection sets.
-/
namespace EmbeddedGraphQL.Completion

/-- Whether a type is the one that queries start from. -/
def isQueryRoot (s : Schema) (t : NamedType) : Bool := s.query == some t.name

/-- The field of a type by name. The name of the type can be asked of every type, and the schema
only of the query root. Input fields count as fields without arguments. -/
def fieldOf? (s : Schema) (parent : NamedType) (name : String) : Option FieldDoc :=
  if name == Standard.typenameField.name then some (.ofField Standard.typenameField)
  else if isQueryRoot s parent && name == Standard.schemaField.name then
    some (.ofField Standard.schemaField)
  else if isQueryRoot s parent && name == Standard.typeField.name then
    some (.ofField Standard.typeField)
  else (Schema.fieldDocs parent).find? (·.name == name)

/-- The named type of a field of a type. -/
def fieldType? (s : Schema) (parent : NamedType) (name : String) : Option NamedType :=
  (fieldOf? s parent name).bind fun f => s.type? f.type.baseName

/-- The root type of an operation. -/
def rootType? (s : Schema) : DefinitionKeyword → Option NamedType
  | .mutation => s.root? .mutation
  | .subscription => s.root? .subscription
  | _ => s.root? .query

/-- One step down into a selection set. Other brackets leave the type alone. -/
def enter (s : Schema) (current : Option NamedType) (frame : Frame) : Option NamedType :=
  if frame.kind = .selectionSet then
    match frame.owner with
    | .root operation => rootType? s operation
    | .type name => name.bind s.type?
    | .field name => current.bind fun parent => name.bind (fieldType? s parent)
    | _ => current
  else current

/-- The type that the innermost selection set selects from; the innermost bracket comes first. -/
def selectionType? (s : Schema) (stack : List Frame) : Option NamedType :=
  stack.reverse.foldl (enter s) none

end EmbeddedGraphQL.Completion
