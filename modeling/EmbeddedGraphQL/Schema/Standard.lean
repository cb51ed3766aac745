import EmbeddedGraphQL.Schema.Basic

/-!
What every schema has: the five scalars, the directives of the language, and the types and fields
by which a schema describes itself.
-/
namespace EmbeddedGraphQL.Standard

def scalarNames : List String := ["String", "Int", "Float", "Boolean", "ID"]

private def standardScalar (name description : String) : NamedType :=
  ⟨name, some description, .scalar none⟩

def scalars : List NamedType := [
  standardScalar "String"
    ("The `String` scalar type represents textual data, represented as UTF-8 character " ++
      "sequences. The String type is most often used by GraphQL to represent free-form " ++
      "human-readable text."),
  standardScalar "Int"
    ("The `Int` scalar type represents non-fractional signed whole numeric values. " ++
      "Int can represent values between -(2^31) and 2^31 - 1."),
  standardScalar "Float"
    ("The `Float` scalar type represents signed double-precision fractional values as specified " ++
      "by [IEEE 754](https:" ++ "//en.wikipedia.org/wiki/IEEE_floating_point)."),
  standardScalar "Boolean" "The `Boolean` scalar type represents `true` or `false`.",
  standardScalar "ID"
    ("The `ID` scalar type represents a unique identifier, often used to refetch an object or " ++
      "as key for a cache. The ID type appears in a JSON response as a String; however, it is " ++
      "not intended to be human-readable. When expected as an input type, any string (such as " ++
      "`\"4\"`) or integer (such as `4`) input value will be accepted as an ID.")]

/-! Short forms for the types below -/

private def one (name : String) : TypeExpr := .named name

private def must (name : String) : TypeExpr := .nonNull (.named name)

private def each (name : String) : TypeExpr := .list (.nonNull (.named name))

private def mustEach (name : String) : TypeExpr := .nonNull (each name)

private def written (v : Option Value) (name : String) (description : Option String)
    (type : TypeExpr) : InputValue :=
  ⟨name, description, type, v, none⟩

private def plainField (name : String) (type : TypeExpr) : Field := ⟨name, none, [], type, none⟩

private def describedField (name description : String) (type : TypeExpr) : Field :=
  ⟨name, some description, [], type, none⟩

private def no : Value := .boolean false ⟨0, 0⟩

/-- A field that leaves deprecated parts out unless asked for them. -/
private def filteredField (name : String) (type : TypeExpr) : Field :=
  ⟨name, none, [written (some no) "includeDeprecated" none (one "Boolean")], type, none⟩

private def objectType (name description : String) (fields : List Field) : NamedType :=
  ⟨name, some description, .object [] fields⟩

private def enumType (name description : String) (values : List (String × String)) : NamedType :=
  ⟨name, some description, .enum (values.map fun (value, description) =>
    ⟨value, some description, none⟩)⟩

private def deprecationFields : List Field :=
  [plainField "isDeprecated" (must "Boolean"), plainField "deprecationReason" (one "String")]

/-! Introspection -/

def schemaType : NamedType :=
  objectType "__Schema"
    ("A GraphQL Schema defines the capabilities of a GraphQL server. It exposes all available " ++
      "types and directives on the server, as well as the entry points for query, mutation, and " ++
      "subscription operations.")
    [plainField "description" (one "String"),
      describedField "types" "A list of all types supported by this server." (mustEach "__Type"),
      describedField "queryType" "The type that query operations will be rooted at."
        (must "__Type"),
      describedField "mutationType"
        ("If this server supports mutation, the type that mutation operations will be rooted at.")
        (one "__Type"),
      describedField "subscriptionType"
        ("If this server supports subscription, the type that subscription operations will be " ++
          "rooted at.")
        (one "__Type"),
      { name := "directives"
        description := some "A list of all directives supported by this server."
        arguments := [written (some no) "includeDeprecated" none (must "Boolean")]
        type := mustEach "__Directive"
        deprecation := none }]

def typeType : NamedType :=
  objectType "__Type"
    ("The fundamental unit of any GraphQL Schema is the type. There are many kinds of types in " ++
      "GraphQL as represented by the `__TypeKind` enum.\n\nDepending on the kind of a type, " ++
      "certain fields describe information about that type. Scalar types provide no information " ++
      "beyond a name, description and optional `specifiedByURL`, while Enum types provide their " ++
      "values. Object and Interface types provide the fields they describe. Abstract types, " ++
      "Union and Interface, provide the Object types possible at runtime. List and NonNull " ++
      "types compose other types.")
    [plainField "kind" (must "__TypeKind"), plainField "name" (one "String"),
      plainField "description" (one "String"), plainField "specifiedByURL" (one "String"),
      filteredField "fields" (each "__Field"), plainField "interfaces" (each "__Type"),
      plainField "possibleTypes" (each "__Type"), filteredField "enumValues" (each "__EnumValue"),
      filteredField "inputFields" (each "__InputValue"), plainField "ofType" (one "__Type"),
      plainField "isOneOf" (one "Boolean")]

def typeKindType : NamedType :=
  enumType "__TypeKind" "An enum describing what kind of type a given `__Type` is."
    [("SCALAR", "Indicates this type is a scalar."),
      ("OBJECT",
        "Indicates this type is an object. `fields` and `interfaces` are valid fields."),
      ("INTERFACE",
        ("Indicates this type is an interface. `fields`, `interfaces`, and `possibleTypes` are " ++
          "valid fields.")),
      ("UNION", "Indicates this type is a union. `possibleTypes` is a valid field."),
      ("ENUM", "Indicates this type is an enum. `enumValues` is a valid field."),
      ("INPUT_OBJECT",
        "Indicates this type is an input object. `inputFields` is a valid field."),
      ("LIST", "Indicates this type is a list. `ofType` is a valid field."),
      ("NON_NULL", "Indicates this type is a non-null. `ofType` is a valid field.")]

def fieldType : NamedType :=
  objectType "__Field"
    ("Object and Interface types are described by a list of Fields, each of which has a name, " ++
      "potentially a list of arguments, and a return type.")
    ([plainField "name" (must "String"), plainField "description" (one "String"),
      filteredField "args" (mustEach "__InputValue"), plainField "type" (must "__Type")] ++
      deprecationFields)

def inputValueType : NamedType :=
  objectType "__InputValue"
    ("Arguments provided to Fields or Directives and the input fields of an InputObject are " ++
      "represented as Input Values which describe their type and optionally a default value.")
    ([plainField "name" (must "String"), plainField "description" (one "String"),
      plainField "type" (must "__Type"),
      describedField "defaultValue"
        "A GraphQL-formatted string representing the default value for this input value."
        (one "String")] ++ deprecationFields)

def enumValueType : NamedType :=
  objectType "__EnumValue"
    ("One possible value for a given Enum. Enum values are unique values, not a placeholder for " ++
      "a string or numeric value. However an Enum value is returned in a JSON response as a " ++
      "string.")
    ([plainField "name" (must "String"), plainField "description" (one "String")] ++
      deprecationFields)

def directiveType : NamedType :=
  objectType "__Directive"
    ("A Directive provides a way to describe alternate runtime execution and type validation " ++
      "behavior in a GraphQL document.\n\nIn some cases, you need to provide options to alter " ++
      "GraphQL's execution behavior in ways field arguments will not suffice, such as " ++
      "conditionally including or skipping a field. Directives provide this by describing " ++
      "additional information to the executor.")
    ([plainField "name" (must "String"), plainField "description" (one "String"),
      plainField "isRepeatable" (must "Boolean"),
      plainField "locations" (mustEach "__DirectiveLocation"),
      filteredField "args" (mustEach "__InputValue")] ++ deprecationFields)

def directiveLocationType : NamedType :=
  enumType "__DirectiveLocation"
    ("A Directive can be adjacent to many parts of the GraphQL language, a __DirectiveLocation " ++
      "describes one such possible adjacencies.")
    [("QUERY", "Location adjacent to a query operation."),
      ("MUTATION", "Location adjacent to a mutation operation."),
      ("SUBSCRIPTION", "Location adjacent to a subscription operation."),
      ("FIELD", "Location adjacent to a field."),
      ("FRAGMENT_DEFINITION", "Location adjacent to a fragment definition."),
      ("FRAGMENT_SPREAD", "Location adjacent to a fragment spread."),
      ("INLINE_FRAGMENT", "Location adjacent to an inline fragment."),
      ("VARIABLE_DEFINITION", "Location adjacent to a variable definition."),
      ("SCHEMA", "Location adjacent to a schema definition."),
      ("SCALAR", "Location adjacent to a scalar definition."),
      ("OBJECT", "Location adjacent to an object type definition."),
      ("FIELD_DEFINITION", "Location adjacent to a field definition."),
      ("ARGUMENT_DEFINITION", "Location adjacent to an argument definition."),
      ("INTERFACE", "Location adjacent to an interface definition."),
      ("UNION", "Location adjacent to a union definition."),
      ("ENUM", "Location adjacent to an enum definition."),
      ("ENUM_VALUE", "Location adjacent to an enum value definition."),
      ("INPUT_OBJECT", "Location adjacent to an input object type definition."),
      ("INPUT_FIELD_DEFINITION", "Location adjacent to an input object field definition."),
      ("DIRECTIVE_DEFINITION", "Location adjacent to a directive definition.")]

/-- The types by which a schema describes itself. -/
def introspectionTypes : List NamedType :=
  [schemaType, directiveType, directiveLocationType, typeType, fieldType, inputValueType,
    enumValueType, typeKindType]

def types : List NamedType := scalars ++ introspectionTypes

def type? (name : String) : Option NamedType := types.find? (·.name == name)

def isScalarName (name : String) : Bool := scalarNames.contains name

def isIntrospectionName (name : String) : Bool := introspectionTypes.any (·.name == name)

/-! Directives -/

def defaultDeprecationReason : String := "No longer supported"

private def selectionLocations : List String := ["FIELD", "FRAGMENT_SPREAD", "INLINE_FRAGMENT"]

def directives : List DirectiveType := [
  { name := "include"
    description := some
      ("Directs the executor to include this field or fragment only when the `if` argument is " ++
        "true.")
    arguments := [written none "if" (some "Included when true.") (must "Boolean")]
    isRepeatable := false
    locations := selectionLocations },
  { name := "skip"
    description := some
      "Directs the executor to skip this field or fragment when the `if` argument is true."
    arguments := [written none "if" (some "Skipped when true.") (must "Boolean")]
    isRepeatable := false
    locations := selectionLocations },
  { name := "deprecated"
    description := some "Marks an element of a GraphQL schema as no longer supported."
    arguments := [written (some (.string defaultDeprecationReason false ⟨0, 0⟩)) "reason"
      (some ("Explains why this element was deprecated, usually also including a suggestion for " ++
        "how to access supported similar data. Formatted using the Markdown syntax, as " ++
        "specified by [CommonMark](https:" ++ "//commonmark.org/)."))
      (one "String")]
    isRepeatable := false
    locations := ["FIELD_DEFINITION", "ARGUMENT_DEFINITION", "INPUT_FIELD_DEFINITION",
      "ENUM_VALUE", "DIRECTIVE_DEFINITION"] },
  { name := "specifiedBy"
    description := some "Exposes a URL that specifies the behavior of this scalar."
    arguments := [written none "url"
      (some "The URL that specifies the behavior of this scalar.") (must "String")]
    isRepeatable := false
    locations := ["SCALAR"] },
  { name := "oneOf"
    description := some "Indicates an Input Object is a OneOf Input Object."
    arguments := []
    isRepeatable := false
    locations := ["INPUT_OBJECT"] }]

def isDirectiveName (name : String) : Bool := directives.any (·.name == name)

/-! Fields that need not be declared -/

def schemaField : Field :=
  ⟨"__schema", some "Access the current type schema of this server.", [], must "__Schema", none⟩

def typeField : Field :=
  ⟨"__type", some "Request the type information of a single type.",
    [written none "name" none (must "String")], one "__Type", none⟩

def typenameField : Field :=
  ⟨"__typename", some "The name of the current Object type at runtime.", [], must "String", none⟩

end EmbeddedGraphQL.Standard
