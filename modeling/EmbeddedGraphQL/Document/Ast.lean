/-!
Documents of the GraphQL language: operations and fragments, and definitions of types. Every node
carries the range of the text that it was read from.
-/
namespace EmbeddedGraphQL

structure Span where
  start : Nat
  stop : Nat
  deriving DecidableEq, Repr, Inhabited

structure Name where
  value : String
  span : Span
  deriving DecidableEq, Repr, Inhabited

/-- Values as written. Numbers keep their text, strings are without quotes and escapes. -/
inductive Value where
  | variable (name : Name) (span : Span)
  | int (text : String) (span : Span)
  | float (text : String) (span : Span)
  | string (text : String) (block : Bool) (span : Span)
  | boolean (b : Bool) (span : Span)
  | null (span : Span)
  | enum (name : String) (span : Span)
  | list (items : List Value) (span : Span)
  | object (fields : List (Name × Value)) (span : Span)
  deriving Inhabited

def Value.span : Value → Span
  | .variable _ span | .int _ span | .float _ span | .string _ _ span | .boolean _ span
  | .null span | .enum _ span | .list _ span | .object _ span => span

/-- A reference to a type. -/
inductive TypeRef where
  | named (name : Name)
  | list (item : TypeRef) (span : Span)
  | nonNull (item : TypeRef) (span : Span)
  deriving DecidableEq, Repr, Inhabited

namespace TypeRef

def span : TypeRef → Span
  | named name => name.span
  | list _ span | nonNull _ span => span

/-- The named type inside all wrappers. -/
def baseName : TypeRef → Name
  | named name => name
  | list item _ | nonNull item _ => item.baseName

end TypeRef

/-- A name with a value: an argument or a field of an object. -/
structure Argument where
  name : Name
  value : Value
  deriving Inhabited

def Argument.span (a : Argument) : Span := ⟨a.name.span.start, a.value.span.stop⟩

structure Directive where
  name : Name
  arguments : List Argument
  span : Span
  deriving Inhabited

inductive OperationKind where
  | query
  | mutation
  | subscription
  deriving DecidableEq, Repr, Inhabited

namespace OperationKind

def word : OperationKind → String
  | query => "query"
  | mutation => "mutation"
  | subscription => "subscription"

/-- The place of directives of an operation. -/
def location : OperationKind → String
  | query => "QUERY"
  | mutation => "MUTATION"
  | subscription => "SUBSCRIPTION"

def ofWord? (word : String) : Option OperationKind :=
  [query, mutation, subscription].find? (·.word == word)

end OperationKind

/-- What is selected from a type. A field without a selection set of its own has no braces. -/
inductive Selection where
  | field (aliasName : Option Name) (name : Name) (arguments : List Argument)
      (directives : List Directive) (braces : Option Span) (selections : List Selection)
      (span : Span)
  | spread (name : Name) (directives : List Directive) (span : Span)
  | inline (type : Option Name) (directives : List Directive) (braces : Span)
      (selections : List Selection) (span : Span)
  deriving Inhabited

structure SelectionSet where
  items : List Selection
  span : Span
  deriving Inhabited

/-- A string in front of a definition. -/
structure Description where
  text : String
  block : Bool
  span : Span
  deriving DecidableEq, Repr, Inhabited

structure VariableDefinition where
  description : Option Description
  variableSpan : Span
  name : Name
  type : TypeRef
  default : Option Value
  directives : List Directive
  span : Span
  deriving Inhabited

structure Operation where
  description : Option Description
  kind : OperationKind
  name : Option Name
  variableDefinitions : List VariableDefinition
  directives : List Directive
  selections : SelectionSet
  span : Span
  deriving Inhabited

structure Fragment where
  description : Option Description
  name : Name
  type : Name
  directives : List Directive
  selections : SelectionSet
  span : Span
  deriving Inhabited

structure InputValueDefinition where
  description : Option Description
  name : Name
  type : TypeRef
  default : Option Value
  directives : List Directive
  span : Span
  deriving Inhabited

structure FieldDefinition where
  description : Option Description
  name : Name
  arguments : List InputValueDefinition
  type : TypeRef
  directives : List Directive
  span : Span
  deriving Inhabited

structure EnumValueDefinition where
  description : Option Description
  name : Name
  directives : List Directive
  span : Span
  deriving Inhabited

/-- What a type is made of. -/
inductive TypeBody where
  | scalar
  | object (interfaces : List Name) (fields : List FieldDefinition)
  | interface (interfaces : List Name) (fields : List FieldDefinition)
  | union (types : List Name)
  | enum (values : List EnumValueDefinition)
  | input (fields : List InputValueDefinition)
  deriving Inhabited

/-- A definition of a type, or an extension of one, which has no description. -/
structure TypeDefinition where
  isExtension : Bool
  description : Option Description
  name : Name
  directives : List Directive
  body : TypeBody
  span : Span
  deriving Inhabited

structure RootDefinition where
  operation : OperationKind
  type : Name
  span : Span
  deriving DecidableEq, Repr, Inhabited

structure SchemaDefinition where
  isExtension : Bool
  description : Option Description
  directives : List Directive
  roots : List RootDefinition
  span : Span
  deriving Inhabited

structure DirectiveDefinition where
  description : Option Description
  name : Name
  arguments : List InputValueDefinition
  repeatable : Bool
  locations : List Name
  span : Span
  deriving Inhabited

inductive Definition where
  | operation (o : Operation)
  | fragment (f : Fragment)
  | schema (s : SchemaDefinition)
  | type (t : TypeDefinition)
  | directive (d : DirectiveDefinition)
  deriving Inhabited

def Definition.span : Definition → Span
  | operation o => o.span
  | fragment f => f.span
  | schema s => s.span
  | type t => t.span
  | directive d => d.span

/-- A document, with the length of the text it was read from. -/
structure Document where
  definitions : List Definition
  length : Nat
  deriving Inhabited

namespace Document

def operations (d : Document) : List Operation :=
  d.definitions.filterMap fun
    | .operation o => some o
    | _ => none

def fragments (d : Document) : List Fragment :=
  d.definitions.filterMap fun
    | .fragment f => some f
    | _ => none

end Document
end EmbeddedGraphQL
