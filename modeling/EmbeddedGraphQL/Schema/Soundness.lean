import EmbeddedGraphQL.Schema.Constant
import EmbeddedGraphQL.Schema.Reachable

/-!
Whether documents can be checked against a schema: it has a query root, its types have parts, and
objects have the fields of the interfaces they implement.
-/
namespace EmbeddedGraphQL

namespace Schema

variable (s : Schema)

/-- Whether a value of one type can stand where another is expected. -/
def isSubtype : TypeExpr → TypeExpr → Bool
  | .nonNull a, .nonNull b => isSubtype a b
  | .nonNull a, b => isSubtype a b
  | .list a, .list b => isSubtype a b
  | .named a, .named b =>
    a == b || match s.type? b, s.type? a with
      | some super, some sub =>
        super.isAbstract && (sub.isObject || sub.isInterface) && isSubType super sub
      | _, _ => false
  | _, _ => false

end Schema

namespace SchemaCheck

/-- Names that start with two underscores are kept for introspection. -/
def isFreeName (name : String) : Bool := !name.startsWith "__"

variable (s : Schema)

/-- An input value with a free name and an input type, not both required and deprecated. -/
def isSoundInput (i : InputValue) : Bool :=
  isFreeName i.name && s.isInputType i.type && !(s.isRequired i && i.deprecation.isSome)

def isSoundField (f : Field) : Bool :=
  isFreeName f.name && s.isOutputType f.type && f.arguments.all (isSoundInput s)

/-- Whether a field serves for the field of an interface. -/
def serves (f wanted : Field) : Bool :=
  s.isSubtype f.type wanted.type &&
    (wanted.arguments.all fun i => f.arguments.any fun own =>
      own.name == i.name && own.type == i.type) &&
    f.arguments.all fun own =>
      wanted.arguments.any (·.name == own.name) || !s.isRequired own

/-- Whether a type has what an interface demands. -/
def implements (t : NamedType) (name : String) : Bool :=
  match s.type? name with
  | some i =>
    i.isInterface && i.name != t.name && i.interfaces.all t.interfaces.contains &&
      i.fields.all fun wanted => (t.field? wanted.name).any (serves s · wanted)
  | none => false

def isSoundComposite (t : NamedType) : Bool :=
  !t.fields.isEmpty && t.fields.all (isSoundField s) &&
    t.interfaces.eraseDups.length == t.interfaces.length && t.interfaces.all (implements s t)

def isSoundInputObject (fields : List InputValue) (isOneOf : Bool) : Bool :=
  !fields.isEmpty && fields.all (isSoundInput s) &&
    (!isOneOf || fields.all fun i => !i.type.isNonNull && (s.default? i).isNone)

/-- Input types that a value of an input type cannot do without. -/
def demandedInputs (name : String) : List String :=
  match s.kind? name with
  | some (.input fields _) =>
    fields.filterMap fun i =>
      match i.type with
      | .nonNull (.named inner) =>
        if (s.type? inner).any (·.isInputObject) then some inner else none
      | _ => none
  | _ => []

def isSoundType (t : NamedType) : Bool :=
  (Standard.isIntrospectionName t.name || isFreeName t.name) &&
    match t.kind with
    | .scalar _ => true
    | .object .. | .interface .. => isSoundComposite s t
    | .union members => !members.isEmpty && members.eraseDups.length == members.length
    | .enum values => !values.isEmpty && values.all (isFreeName ·.name)
    | .input fields isOneOf =>
      isSoundInputObject s fields isOneOf && !isCyclic (demandedInputs s) s.types.length t.name

def isObjectName (name : String) : Bool := (s.type? name).any (·.isObject)

/-- There is a query root, and all roots are objects. -/
def hasSoundRoots : Bool :=
  s.query.any (isObjectName s) && s.mutation.all (isObjectName s) &&
    s.subscription.all (isObjectName s)

end SchemaCheck

/-- Whether documents can be checked against a schema. -/
def Schema.isSound (s : Schema) : Bool :=
  SchemaCheck.hasSoundRoots s &&
    (s.directives.all fun d =>
      SchemaCheck.isFreeName d.name && d.arguments.all (SchemaCheck.isSoundInput s)) &&
    s.types.all (SchemaCheck.isSoundType s)

end EmbeddedGraphQL
