import EmbeddedGraphQL.Document.Ast
import EmbeddedGraphQL.Json.Basic

/-!
Documents as JSON. Each node is an object with its kind and its parts; parts that are missing are
null, or an empty list where there may be many. Ranges of nodes are given on request.
-/
namespace EmbeddedGraphQL.Outline

variable (places : Bool)

/-- A node of a kind, with its range if ranges are asked for. -/
def node (kind : String) (span : Span) (parts : List (String × Json)) : Json :=
  let range : List (String × Json) :=
    if places then [("loc", .obj [("start", .int span.start), ("end", .int span.stop)])] else []
  .obj (("kind", .str kind) :: (parts ++ range))

def list {α : Type} (f : α → Json) (items : List α) : Json := .arr (items.map f)

def option {α : Type} (f : α → Json) : Option α → Json
  | some a => f a
  | none => .null

def name (n : Name) : Json := node places "name" n.span [("value", .str n.value)]

def namedType (n : Name) : Json := node places "named_type" n.span [("name", name places n)]

mutual

def value : Value → Json
  | .variable n span => node places "variable" span [("name", name places n)]
  | .int text span => node places "int_value" span [("value", .str text)]
  | .float text span => node places "float_value" span [("value", .str text)]
  | .string text block span =>
    node places "string_value" span [("value", .str text), ("block", .bool block)]
  | .boolean b span => node places "boolean_value" span [("value", .bool b)]
  | .null span => node places "null_value" span []
  | .enum text span => node places "enum_value" span [("value", .str text)]
  | .list items span => node places "list_value" span [("values", .arr (values items))]
  | .object fields span => node places "object_value" span [("fields", .arr (objectFields fields))]

def values : List Value → List Json
  | [] => []
  | v :: rest => value v :: values rest

def objectFields : List (Name × Value) → List Json
  | [] => []
  | (n, v) :: rest =>
    node places "object_field" ⟨n.span.start, v.span.stop⟩
      [("name", name places n), ("value", value v)] :: objectFields rest

end

def typeRef : TypeRef → Json
  | .named n => namedType places n
  | .list item span => node places "list_type" span [("type", typeRef item)]
  | .nonNull item span => node places "non_null_type" span [("type", typeRef item)]

def argument (a : Argument) : Json :=
  node places "argument" a.span [("name", name places a.name), ("value", value places a.value)]

def directive (d : Directive) : Json :=
  node places "directive" d.span
    [("name", name places d.name), ("arguments", list (argument places) d.arguments)]

def directives (ds : List Directive) : Json := list (directive places) ds

mutual

def selection : Selection → Json
  | .field aliasName n arguments ds braces selections span =>
    node places "field" span
      [("directives", directives places ds), ("alias", option (name places) aliasName),
        ("name", name places n), ("arguments", list (argument places) arguments),
        ("selection_set", match braces with
          | some braces => node places "selection_set" braces
            [("selections", .arr (selectionList selections))]
          | none => .null)]
  | .spread n ds span =>
    node places "fragment_spread" span
      [("directives", directives places ds), ("name", name places n)]
  | .inline type ds braces selections span =>
    node places "inline_fragment" span
      [("directives", directives places ds), ("type_condition", option (namedType places) type),
        ("selection_set", node places "selection_set" braces
          [("selections", .arr (selectionList selections))])]

def selectionList : List Selection → List Json
  | [] => []
  | s :: rest => selection s :: selectionList rest

end

def selectionSet (s : SelectionSet) : Json :=
  node places "selection_set" s.span [("selections", .arr (selectionList places s.items))]

def description (d : Description) : Json :=
  node places "string_value" d.span [("value", .str d.text), ("block", .bool d.block)]

def variableDefinition (v : VariableDefinition) : Json :=
  node places "variable_definition" v.span
    [("description", option (description places) v.description),
      ("variable", node places "variable" v.variableSpan [("name", name places v.name)]),
      ("type", typeRef places v.type), ("default_value", option (value places) v.default),
      ("directives", directives places v.directives)]

def inputValueDefinition (i : InputValueDefinition) : Json :=
  node places "input_value_definition" i.span
    [("description", option (description places) i.description), ("name", name places i.name),
      ("directives", directives places i.directives), ("type", typeRef places i.type),
      ("default_value", option (value places) i.default)]

def fieldDefinition (f : FieldDefinition) : Json :=
  node places "field_definition" f.span
    [("description", option (description places) f.description), ("name", name places f.name),
      ("directives", directives places f.directives),
      ("arguments", list (inputValueDefinition places) f.arguments),
      ("type", typeRef places f.type)]

def enumValueDefinition (e : EnumValueDefinition) : Json :=
  node places "enum_value_definition" e.span
    [("description", option (description places) e.description), ("name", name places e.name),
      ("directives", directives places e.directives)]

/-- The word for a type in the name of its kind of node, and the parts of its body. -/
def typeBody : TypeBody → String × List (String × Json)
  | .scalar => ("scalar_type", [])
  | .object interfaces fields =>
    ("object_type", [("interfaces", list (namedType places) interfaces),
      ("fields", list (fieldDefinition places) fields)])
  | .interface interfaces fields =>
    ("interface_type", [("interfaces", list (namedType places) interfaces),
      ("fields", list (fieldDefinition places) fields)])
  | .union types => ("union_type", [("types", list (namedType places) types)])
  | .enum values => ("enum_type", [("values", list (enumValueDefinition places) values)])
  | .input fields =>
    ("input_object_type", [("fields", list (inputValueDefinition places) fields)])

def rootDefinition (r : RootDefinition) : Json :=
  node places "operation_type_definition" r.span
    [("operation", .str r.operation.word), ("type", namedType places r.type)]

def definition : Definition → Json
  | .operation o =>
    node places "operation_definition" o.span
      [("description", option (description places) o.description),
        ("name", option (name places) o.name), ("directives", directives places o.directives),
        ("variable_definitions", list (variableDefinition places) o.variableDefinitions),
        ("selection_set", selectionSet places o.selections), ("operation", .str o.kind.word)]
  | .fragment f =>
    node places "fragment_definition" f.span
      [("description", option (description places) f.description), ("name", name places f.name),
        ("directives", directives places f.directives), ("variable_definitions", .null),
        ("selection_set", selectionSet places f.selections),
        ("type_condition", namedType places f.type)]
  | .schema s =>
    let parts :=
      [("directives", directives places s.directives),
        ("operation_types", list (rootDefinition places) s.roots)]
    if s.isExtension then node places "schema_extension" s.span parts
    else
      node places "schema_definition" s.span
        (("description", option (description places) s.description) :: parts)
  | .type t =>
    let (word, parts) := typeBody places t.body
    let parts :=
      [("name", name places t.name), ("directives", directives places t.directives)] ++ parts
    if t.isExtension then node places (word ++ "_extension") t.span parts
    else
      node places (word ++ "_definition") t.span
        (("description", option (description places) t.description) :: parts)
  | .directive d =>
    node places "directive_definition" d.span
      [("description", option (description places) d.description), ("name", name places d.name),
        ("arguments", list (inputValueDefinition places) d.arguments), ("directives", .arr []),
        ("repeatable", .bool d.repeatable), ("locations", list (name places) d.locations)]

/-- A document as JSON; its range is the whole text. -/
def document (d : Document) : Json :=
  node places "document" ⟨0, d.length⟩ [("definitions", list (definition places) d.definitions)]

/-- What stands for a text that is no document. -/
def unreadable : Json := .obj [("kind", .str "document"), ("definitions", .arr [])]

end EmbeddedGraphQL.Outline
