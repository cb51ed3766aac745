import EmbeddedGraphQL.Document.Ast

/-!
GraphQL schemas. Types refer to each other by name and are kept in the order in which they are
shown; names of types are different from each other, and so are the names of the fields of a type.
-/
namespace EmbeddedGraphQL

/-- A type by name, possibly wrapped. -/
inductive TypeExpr where
  | named (name : String)
  | list (item : TypeExpr)
  | nonNull (item : TypeExpr)
  deriving DecidableEq, Repr, Inhabited

namespace TypeExpr

def text : TypeExpr → String
  | named name => name
  | list item => "[" ++ item.text ++ "]"
  | nonNull item => item.text ++ "!"

def baseName : TypeExpr → String
  | named name => name
  | list item | nonNull item => item.baseName

/-- The type without an outer mark against null. -/
def nullable : TypeExpr → TypeExpr
  | nonNull item => item
  | t => t

def isNonNull : TypeExpr → Bool
  | nonNull _ => true
  | _ => false

def ofRef : TypeRef → TypeExpr
  | .named name => named name.value
  | .list item _ => list (ofRef item)
  | .nonNull item _ => nonNull (ofRef item)

end TypeExpr

/-- An argument or an input field. The default is kept as it was written. -/
structure InputValue where
  name : String
  description : Option String
  type : TypeExpr
  default : Option Value
  deprecation : Option String
  deriving Inhabited

structure Field where
  name : String
  description : Option String
  arguments : List InputValue
  type : TypeExpr
  deprecation : Option String
  deriving Inhabited

structure EnumValue where
  name : String
  description : Option String
  deprecation : Option String
  deriving DecidableEq, Repr, Inhabited

/-- What a named type is. -/
inductive TypeKind where
  | scalar (specifiedBy : Option String)
  | object (interfaces : List String) (fields : List Field)
  | interface (interfaces : List String) (fields : List Field)
  | union (members : List String)
  | enum (values : List EnumValue)
  | input (fields : List InputValue) (isOneOf : Bool)
  deriving Inhabited

structure NamedType where
  name : String
  description : Option String
  kind : TypeKind
  deriving Inhabited

namespace NamedType

/-- Fields of an object or an interface. -/
def fields (t : NamedType) : List Field :=
  match t.kind with
  | .object _ fields | .interface _ fields => fields
  | _ => []

def interfaces (t : NamedType) : List String :=
  match t.kind with
  | .object interfaces _ | .interface interfaces _ => interfaces
  | _ => []

def inputFields (t : NamedType) : List InputValue :=
  match t.kind with
  | .input fields _ => fields
  | _ => []

def field? (t : NamedType) (name : String) : Option Field := t.fields.find? (·.name == name)

def isObject (t : NamedType) : Bool :=
  match t.kind with
  | .object .. => true
  | _ => false

def isInterface (t : NamedType) : Bool :=
  match t.kind with
  | .interface .. => true
  | _ => false

def isInputObject (t : NamedType) : Bool :=
  match t.kind with
  | .input .. => true
  | _ => false

/-- Scalars and enums, which have no parts to select. -/
def isLeaf (t : NamedType) : Bool :=
  match t.kind with
  | .scalar _ | .enum _ => true
  | _ => false

/-- Interfaces and unions, which stand for several object types. -/
def isAbstract (t : NamedType) : Bool :=
  match t.kind with
  | .interface .. | .union _ => true
  | _ => false

/-- Objects, interfaces and unions, from which fields are selected. -/
def isComposite (t : NamedType) : Bool := t.isObject || t.isAbstract

/-- Types that values can be given of. -/
def isInput (t : NamedType) : Bool := t.isLeaf || t.isInputObject

/-- Types that answers can be of. -/
def isOutput (t : NamedType) : Bool := !t.isInputObject

end NamedType

structure DirectiveType where
  name : String
  description : Option String
  arguments : List InputValue
  isRepeatable : Bool
  locations : List String
  deprecation : Option String := none
  deriving Inhabited

structure Schema where
  description : Option String
  types : List NamedType
  directives : List DirectiveType
  query : Option String
  mutation : Option String
  subscription : Option String
  deriving Inhabited

namespace Schema

def type? (s : Schema) (name : String) : Option NamedType := s.types.find? (·.name == name)

def kind? (s : Schema) (name : String) : Option TypeKind := (s.type? name).map NamedType.kind

def directive? (s : Schema) (name : String) : Option DirectiveType :=
  s.directives.find? (·.name == name)

def rootName (s : Schema) : OperationKind → Option String
  | .query => s.query
  | .mutation => s.mutation
  | .subscription => s.subscription

/-- The type that an operation starts from. -/
def root? (s : Schema) (operation : OperationKind) : Option NamedType :=
  (s.rootName operation).bind s.type?

/-- The object types that a type stands for: implementing objects in the order of the schema, or
the members of a union in their own. -/
def possibleTypes (s : Schema) (t : NamedType) : List NamedType :=
  match t.kind with
  | .interface .. => s.types.filter fun o => o.isObject && o.interfaces.contains t.name
  | .union members => members.filterMap s.type?
  | _ => []

/-- Whether `sub` is one of the types that the abstract type `super` stands for, or an interface
that implements it. -/
def isSubType (super sub : NamedType) : Bool :=
  match super.kind with
  | .union members => members.contains sub.name
  | .interface .. => sub.interfaces.contains super.name
  | _ => false

def isInputType (s : Schema) (t : TypeExpr) : Bool := (s.type? t.baseName).any (·.isInput)

def isOutputType (s : Schema) (t : TypeExpr) : Bool := (s.type? t.baseName).any (·.isOutput)

end Schema
end EmbeddedGraphQL
