import EmbeddedGraphQL.Schema.DefinitionRules
import EmbeddedGraphQL.Schema.Order
import EmbeddedGraphQL.Schema.Reachable
import EmbeddedGraphQL.Document.Parser
import EmbeddedGraphQL.Document.Excerpt

/-!
Schemas from definitions. Extensions are merged into the types they extend, the standard types and
directives are added, and everything has to be of a kind that its place allows.
-/
namespace EmbeddedGraphQL

/-- Why a text defines no schema: it cannot be read, a definition breaks a rule, or a standard
directive has a wrong argument. -/
inductive DefinitionError where
  | unreadable (e : SyntaxError)
  | invalid
  | argument (message : String)
  deriving DecidableEq, Repr

namespace SchemaBuild

abbrev Outcome := Except DefinitionError

/-- An argument problem in the fields of a type, or elsewhere. -/
def argumentError (text : List Char) (type : Option String) (problem : ArgumentProblem × Nat) :
    DefinitionError :=
  match type with
  | none => .argument problem.1.message
  | some type =>
    .argument (s!"{type} fields cannot be resolved. " ++ problem.1.message ++ "\n\n" ++
      Excerpt.atOffset text problem.2)

/-- What the definitions say about names: the text they come from, and the types. -/
structure Source where
  text : List Char
  types : List TypeDefinition

namespace Source

variable (source : Source)

def ofDocument (text : List Char) (d : Document) : Source :=
  ⟨text, DefinitionRules.typeParts d⟩

/-- The definition of a type, unless it is a standard one. -/
def body? (name : String) : Option TypeBody :=
  if (Standard.type? name).isSome then none
  else (source.types.find? fun t => !t.isExtension && t.name.value == name).map (·.body)

def isInput (name : String) : Bool :=
  match source.body? name with
  | some (.scalar) | some (.enum _) | some (.input _) => true
  | some _ => false
  | none => (Standard.type? name).any (·.isInput)

def isOutput (name : String) : Bool :=
  match source.body? name with
  | some (.input _) => false
  | some _ => true
  | none => (Standard.type? name).any (·.isOutput)

def isInterface (name : String) : Bool :=
  match source.body? name with
  | some (.interface ..) => true
  | _ => false

def isObject (name : String) : Bool :=
  match source.body? name with
  | some (.object ..) => true
  | some _ => false
  | none => (Standard.type? name).any (·.isObject)

/-- Goes on only if a condition holds. -/
def demand (condition : Bool) : Outcome Unit := if condition then .ok () else .error .invalid

def deprecation (type : Option String) (ds : List Directive) : Outcome (Option String) :=
  (Directive.deprecation? ds).mapError (argumentError source.text type)

def inputValue (type : Option String) (i : InputValueDefinition) : Outcome InputValue := do
  let deprecation ← source.deprecation type i.directives
  demand (source.isInput i.type.baseName.value)
  return {
    name := i.name.value, description := i.description.map (·.text), type := .ofRef i.type
    default := i.default, deprecation }

def field (type : String) (f : FieldDefinition) : Outcome Field := do
  let arguments ← f.arguments.mapM (source.inputValue (some type))
  let deprecation ← source.deprecation (some type) f.directives
  demand (source.isOutput f.type.baseName.value)
  return {
    name := f.name.value, description := f.description.map (·.text), arguments
    type := .ofRef f.type, deprecation }

def enumValue (e : EnumValueDefinition) : Outcome EnumValue := do
  let deprecation ← source.deprecation none e.directives
  return { name := e.name.value, description := e.description.map (·.text), deprecation }

/-- The bodies of a type and of its extensions. -/
def bodies (name : String) : List TypeBody :=
  let parts := source.types.filter (·.name.value == name)
  ((parts.filter (!·.isExtension)) ++ parts.filter (·.isExtension)).map (·.body)

def interfaceNames : TypeBody → List String
  | .object interfaces _ | .interface interfaces _ => interfaces.map (·.value)
  | _ => []

def memberNames : TypeBody → List String
  | .union types => types.map (·.value)
  | _ => []

def enumValues : TypeBody → List EnumValueDefinition
  | .enum values => values
  | _ => []

def inputFields : TypeBody → List InputValueDefinition
  | .input fields => fields
  | _ => []

def interfaces (name : String) : Outcome (List String) := do
  let names := (source.bodies name).flatMap interfaceNames
  demand (names.all source.isInterface)
  return names

def fields (name : String) : Outcome (List Field) :=
  ((source.bodies name).flatMap DefinitionRules.fieldDefinitions).mapM (source.field name)

/-- What a type is made of, with its extensions. -/
def kind (t : TypeDefinition) : Outcome TypeKind := do
  let name := t.name.value
  match t.body with
  | .scalar =>
    let address ← (Directive.specifiedBy? t.directives).mapError (argumentError source.text none)
    return .scalar address
  | .object .. => return .object (← source.interfaces name) (← source.fields name)
  | .interface .. => return .interface (← source.interfaces name) (← source.fields name)
  | .union _ =>
    let members := (source.bodies name).flatMap memberNames
    demand (members.all source.isObject)
    return .union members
  | .enum _ =>
    return .enum (← ((source.bodies name).flatMap enumValues).mapM source.enumValue)
  | .input _ =>
    let fields ←
      ((source.bodies name).flatMap inputFields).mapM (source.inputValue (some name))
    return .input fields (Directive.isOneOf t.directives)

/-- The type that a definition gives, a standard one if it has the name of one. -/
def namedType (t : TypeDefinition) : Outcome NamedType := do
  match Standard.type? t.name.value with
  | some standard => return standard
  | none =>
    return {
      name := t.name.value, description := t.description.map (·.text), kind := ← source.kind t }

/-- A type without references to other types. Such a type is made before the directives are, and
all others after them. -/
def standsAlone (t : TypeDefinition) : Bool :=
  match t.body with
  | .scalar | .enum _ => true
  | _ => false

def directive (d : DirectiveDefinition) : Outcome DirectiveType := do
  let arguments ← d.arguments.mapM (source.inputValue none)
  return {
    name := d.name.value, description := d.description.map (·.text), arguments
    isRepeatable := d.repeatable, locations := d.locations.map (·.value) }

end Source

/-! Defaults of input types -/

/-- The input types whose fields are looked at to tell what a value means. -/
def touched (s : Schema) : Nat → TypeExpr → Value → List String
  | 0, _, _ => []
  | fuel + 1, type, v =>
    match type, v with
    | .nonNull inner, v => touched s fuel inner v
    | .list item, .list items _ => items.flatMap (touched s fuel item)
    | .list item, v => touched s fuel item v
    | .named name, .object fields _ =>
      match s.kind? name with
      | some (.input inputs _) =>
        name :: fields.flatMap fun (field, v) =>
          match inputs.find? (·.name == field.value) with
          | some input => touched s fuel input.type v
          | none => []
      | _ => []
    | _, _ => []

/-- The input types that the defaults of an input type touch. -/
def touchedByDefaults (s : Schema) (t : NamedType) : List String :=
  t.inputFields.flatMap fun i =>
    match i.default with
    | some v => touched s (s.nestingBound i.type v) i.type v
    | none => []

/-- Whether no default needs itself to be told. -/
def defaultsAreFounded (s : Schema) : Bool :=
  let inputs := s.types.filter (·.isInputObject)
  let next (name : String) := ((s.type? name).map (touchedByDefaults s)).getD []
  inputs.all fun t => !isCyclic next inputs.length t.name

/-! Roots -/

/-- The root that the parts of the schema definition name for an operation. -/
def definedRoot (parts : List SchemaDefinition) (operation : OperationKind) : Option String :=
  ((parts.flatMap (·.roots)).find? (·.operation == operation)).map (·.type.value)

/-- Without a schema definition, types with the usual names are roots unless an extension names
others. -/
def root (d : Document) (usual : String) (operation : OperationKind) : Option String :=
  let parts := DefinitionRules.schemaParts d
  let isDefined := (DefinitionRules.typeParts d).any fun t =>
    !t.isExtension && t.name.value == usual
  if parts.all (·.isExtension) && isDefined then some usual else definedRoot parts operation

def ofDocument (text : List Char) (d : Document) : Outcome Schema := do
  Source.demand (DefinitionRules.hold d)
  let source := Source.ofDocument text d
  let definitions := source.types.filter (!·.isExtension)
  let _ ← (definitions.filter Source.standsAlone).mapM source.namedType
  let own ← (DefinitionRules.directiveParts d).mapM source.directive
  let types ← definitions.mapM source.namedType
  let missing := Standard.directives.filter fun s => !own.any (·.name == s.name)
  let definition := (DefinitionRules.schemaParts d).find? (!·.isExtension)
  let schema := Schema.assemble
    ((definition.bind (·.description)).map (·.text)) types (own ++ missing)
    (root d "Query" .query) (root d "Mutation" .mutation) (root d "Subscription" .subscription)
  Source.demand (defaultsAreFounded schema)
  return schema

end SchemaBuild

/-- The schema that a text defines. -/
def Schema.ofText (text : List Char) : Except DefinitionError Schema :=
  match Document.parse text with
  | .error e => .error (.unreadable e)
  | .ok d => SchemaBuild.ofDocument text d

end EmbeddedGraphQL
