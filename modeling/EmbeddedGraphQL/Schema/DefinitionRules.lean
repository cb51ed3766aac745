import EmbeddedGraphQL.Validation.Findings

/-!
Whether the definitions of a document can make up a schema: what may be defined once is defined
once, only what is defined is extended, and names and directives are used as they may be.
-/
namespace EmbeddedGraphQL.DefinitionRules

def allDistinct (names : List String) : Bool := names.eraseDups.length == names.length

variable (d : Document)

def schemaParts : List SchemaDefinition :=
  d.definitions.filterMap fun
    | .schema s => some s
    | _ => none

def typeParts : List TypeDefinition :=
  d.definitions.filterMap fun
    | .type t => some t
    | _ => none

def directiveParts : List DirectiveDefinition :=
  d.definitions.filterMap fun
    | .directive t => some t
    | _ => none

/-- Two bodies of the same kind of type. -/
def sameKind : TypeBody → TypeBody → Bool
  | .scalar, .scalar => true
  | .object .., .object .. => true
  | .interface .., .interface .. => true
  | .union .., .union .. => true
  | .enum .., .enum .. => true
  | .input .., .input .. => true
  | _, _ => false

def fieldNames : TypeBody → List String
  | .object _ fields | .interface _ fields => fields.map (·.name.value)
  | .input fields => fields.map (·.name.value)
  | _ => []

def valueNames : TypeBody → List String
  | .enum values => values.map (·.name.value)
  | _ => []

def fieldDefinitions : TypeBody → List FieldDefinition
  | .object _ fields | .interface _ fields => fields
  | _ => []

/-- Names that a type and its extensions have together are distinct. -/
def distinctInTypes (names : TypeBody → List String) : Bool :=
  let parts := typeParts d
  (parts.map (·.name.value)).eraseDups.all fun type =>
    allDistinct ((parts.filter (·.name.value == type)).flatMap fun t => names t.body)

def distinctArguments (arguments : List InputValueDefinition) : Bool :=
  allDistinct (arguments.map (·.name.value))

/-- What may be defined once is defined once. -/
def isUnique : Bool :=
  let roots := (schemaParts d).flatMap (·.roots)
  ((schemaParts d).filter (!·.isExtension)).length ≤ 1 &&
    allDistinct (roots.map (·.operation.word)) &&
    allDistinct (((typeParts d).filter (!·.isExtension)).map (·.name.value)) &&
    allDistinct ((directiveParts d).map (·.name.value)) &&
    distinctInTypes d valueNames && distinctInTypes d fieldNames &&
    (directiveParts d).all (distinctArguments ·.arguments) &&
    (typeParts d).all fun t => (fieldDefinitions t.body).all (distinctArguments ·.arguments)

/-- Extensions extend types of their own kind. -/
def extendsDefined : Bool :=
  let parts := typeParts d
  (parts.filter (·.isExtension)).all fun extension =>
    parts.any fun t =>
      !t.isExtension && t.name.value == extension.name.value && sameKind t.body extension.body

/-- A schema without types of its own, under which names in definitions are looked up. -/
def bareSchema : Schema :=
  { description := none, types := [], directives := Standard.directives
    query := none, mutation := none, subscription := none }

open Validation in
/-- The rules of documents that hold for definitions as well. -/
def rules : List Rule :=
  [knownTypes, knownDirectives, directivesOnce, knownArguments, argumentNames, inputFieldNames,
    requiredArguments]

/-- Whether the definitions of a document keep all the rules. -/
def hold : Bool :=
  isUnique d && extendsDefined d && (Validation.found rules (.of bareSchema d)).isEmpty

end EmbeddedGraphQL.DefinitionRules
