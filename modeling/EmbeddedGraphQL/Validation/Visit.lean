import EmbeddedGraphQL.Schema.Constant

/-!
A document as the sequence of its parts in the order of a walk, each with what the schema says
about the types at its place. Rules read this sequence, so none of them walks the document itself.
-/
namespace EmbeddedGraphQL

/-- A selected field as a part of a document. -/
structure FieldUse where
  aliasName : Option Name
  name : Name
  arguments : List Argument
  directives : List Directive
  braces : Option Span
  selections : List Selection
  span : Span
  deriving Inhabited

/-- The name of the field in the answer. -/
def FieldUse.key (f : FieldUse) : String := (f.aliasName.getD f.name).value

namespace Validation

/-- Types around a place: the type that is selected from, the type of the field or fragment, the
definition of the field, and the types expected of the value there and of the value around it. -/
structure TypeContext where
  parent : Option NamedType
  type : Option TypeExpr
  field : Option Field
  input : Option TypeExpr
  outerInput : Option TypeExpr
  hasDefault : Bool
  deriving Inhabited

def TypeContext.empty : TypeContext := ⟨none, none, none, none, none, false⟩

/-- A part of a document that is reached or left. A value is judged already if it lies in one that
does not fit as a whole. -/
inductive Event where
  | openDocument
  | closeDocument
  | definition (d : Definition)
  | closeOperation (o : Operation)
  | variableDefinition (v : VariableDefinition)
  | part (directives : List Directive)
  | typeName (inTypeSystem : Bool) (name : Name)
  | selections (c : TypeContext) (braces : Span) (items : List Selection)
  | field (c : TypeContext) (f : FieldUse)
  | closeField (c : TypeContext) (f : FieldUse)
  | spread (c : TypeContext) (name : Name) (directives : List Directive) (span : Span)
  | inline (c : TypeContext) (type : Option Name) (directives : List Directive) (span : Span)
  | directive (location : String) (d : Directive)
  | closeDirective (d : Directive)
  | argument (c : TypeContext) (isKnown : Bool) (field : String) (a : Argument)
  | value (c : TypeContext) (judged : Bool) (v : Value)
  | inputField (c : TypeContext) (judged : Bool) (earlier : List Name) (name : Name) (v : Value)
  | variable (c : TypeContext) (name : Name) (span : Span)
  deriving Inhabited

end Validation

namespace Schema

variable (s : Schema)

/-- A type with its wrappers, if the schema has its named type. -/
def typeOf? (t : TypeRef) : Option TypeExpr :=
  let type := TypeExpr.ofRef t
  if (s.type? type.baseName).isSome then some type else none

/-- The definition of a field of a type, the ones that need no declaration included. -/
def fieldOf? (parent : NamedType) (name : String) : Option Field :=
  let isQuery := s.query == some parent.name
  if name == Standard.schemaField.name && isQuery then some Standard.schemaField
  else if name == Standard.typeField.name && isQuery then some Standard.typeField
  else if name == Standard.typenameField.name && parent.isComposite then
    some Standard.typenameField
  else parent.field? name

end Schema

namespace Validation

variable (s : Schema)

def inputOnly (type : Option TypeExpr) : Option TypeExpr := type.filter s.isInputType

/-- The input object type that a value is expected of. -/
def inputObject? (type : Option TypeExpr) : Option NamedType :=
  (type.bind fun t => s.type? t.baseName).filter (·.isInputObject)

/-- What an item of a list is expected to be; a type that is no list is expected of its items. -/
def itemType : Option TypeExpr → Option TypeExpr
  | some t => match t.nullable with
    | .list item => some item
    | other => some other
  | none => none

def expectsList : Option TypeExpr → Bool
  | some t => match t.nullable with
    | .list _ => true
    | _ => false
  | none => false

/-- The context of a value for an input value, or of one without any. -/
def TypeContext.into (c : TypeContext) (input : Option InputValue) : TypeContext :=
  { c with
    input := inputOnly s (input.map (·.type))
    outerInput := c.input
    hasDefault := (input.bind s.default?).isSome }

def TypeContext.item (c : TypeContext) : TypeContext :=
  { c with input := inputOnly s (itemType c.input), outerInput := c.input, hasDefault := false }

mutual

def ofValue (c : TypeContext) (judged : Bool) : Value → List Event
  | .variable name span => [.variable c name span]
  | .list items span =>
    let inside := c.item s
    .value inside judged (.list items span) ::
      ofItems inside (judged || !expectsList c.input) items
  | .object fields span =>
    .value c judged (.object fields span) ::
      ofInputFields c (judged || (inputObject? s c.input).isNone) [] fields
  | v => [.value c judged v]

def ofItems (c : TypeContext) (judged : Bool) : List Value → List Event
  | [] => []
  | v :: rest => ofValue c judged v ++ ofItems c judged rest

def ofInputFields (c : TypeContext) (judged : Bool) (earlier : List Name) :
    List (Name × Value) → List Event
  | [] => []
  | (name, v) :: rest =>
    let input := (inputObject? s c.input).bind fun t =>
      t.inputFields.find? (·.name == name.value)
    let inside := c.into s input
    .inputField inside judged earlier name v ::
      (ofValue inside judged v ++ ofInputFields c judged (earlier ++ [name]) rest)

end

/-- A directive. The arguments of one that the schema does not have are taken for arguments of the
field around it. -/
def ofDirective (c : TypeContext) (location : String) (d : Directive) : List Event :=
  let inputs := match s.directive? d.name.value with
    | some type => type.arguments
    | none => (c.field.map Field.arguments).getD []
  .directive location d ::
    (d.arguments.flatMap fun a =>
      ofValue s (c.into s (inputs.find? (·.name == a.name.value))) false a.value) ++
    [.closeDirective d]

def ofDirectives (c : TypeContext) (location : String) (ds : List Directive) : List Event :=
  ds.flatMap (ofDirective s c location)

def ofArgument (c : TypeContext) (field : String) (a : Argument) : List Event :=
  let input := c.field.bind fun f => f.arguments.find? (·.name == a.name.value)
  .argument c input.isSome field a :: ofValue s (c.into s input) false a.value

/-- The context of a field that is selected. -/
def TypeContext.intoField (c : TypeContext) (name : String) : TypeContext :=
  let field := c.parent.bind fun parent => s.fieldOf? parent name
  { c with field, type := (field.map (·.type)).filter s.isOutputType }

/-- The context of a fragment on a type; without one the type stays the named type it was. -/
def TypeContext.intoFragment (c : TypeContext) (type : Option Name) : TypeContext :=
  let named : Option TypeExpr := match type with
    | some name => some (TypeExpr.named name.value)
    | none => c.type.map fun t => .named t.baseName
  { c with type := named.filter s.isOutputType }

/-- The context inside the braces that follow. -/
def TypeContext.intoBraces (c : TypeContext) : TypeContext :=
  { c with parent := (c.type.bind fun t => s.type? t.baseName).filter (·.isComposite) }

mutual

def ofSelection (c : TypeContext) : Selection → List Event
  | .field aliasName name arguments directives braces selections span =>
    let inside := c.intoField s name.value
    let f : FieldUse := { aliasName, name, arguments, directives, braces, selections, span }
    let braced := inside.intoBraces s
    .field inside f ::
      (arguments.flatMap (ofArgument s inside name.value) ++
        ofDirectives s inside "FIELD" directives ++
        (match braces with
          | some span => .selections braced span selections :: ofSelections braced selections
          | none => []) ++
        [.closeField inside f])
  | .spread name directives span =>
    .spread c name directives span :: ofDirectives s c "FRAGMENT_SPREAD" directives
  | .inline type directives braces selections span =>
    let inside := c.intoFragment s type
    let braced := inside.intoBraces s
    .inline inside type directives span ::
      (type.toList.map (.typeName false) ++ ofDirectives s inside "INLINE_FRAGMENT" directives ++
        .selections braced braces selections :: ofSelections braced selections)

def ofSelections (c : TypeContext) : List Selection → List Event
  | [] => []
  | selection :: rest => ofSelection c selection ++ ofSelections c rest

end

def ofSelectionSet (c : TypeContext) (set : SelectionSet) : List Event :=
  let inside := c.intoBraces s
  .selections inside set.span set.items :: ofSelections s inside set.items

def ofVariableDefinition (v : VariableDefinition) : List Event :=
  let c := { TypeContext.empty with input := inputOnly s (s.typeOf? v.type) }
  .variableDefinition v :: .typeName false v.type.baseName ::
    (v.default.toList.flatMap (ofValue s c false) ++
      ofDirectives s c "VARIABLE_DEFINITION" v.directives)

def ofOperation (o : Operation) : List Event :=
  let root := (s.root? o.kind).filter (·.isObject)
  let c := { TypeContext.empty with type := root.map fun t => .named t.name }
  .definition (.operation o) ::
    (o.variableDefinitions.flatMap (ofVariableDefinition s) ++
      ofDirectives s c o.kind.location o.directives ++ ofSelectionSet s c o.selections ++
      [.closeOperation o])

def ofFragment (f : Fragment) : List Event :=
  let c := TypeContext.empty.intoFragment s (some f.type)
  .definition (.fragment f) :: .typeName false f.type ::
    (ofDirectives s c "FRAGMENT_DEFINITION" f.directives ++ ofSelectionSet s c f.selections)

/-! Definitions of types -/

def ofInputValue (location : String) (i : InputValueDefinition) : List Event :=
  .part i.directives :: .typeName true i.type.baseName ::
    (i.default.toList.flatMap (ofValue s .empty false) ++
      ofDirectives s .empty location i.directives)

def ofFieldDefinition (f : FieldDefinition) : List Event :=
  .part f.directives ::
    (f.arguments.flatMap (ofInputValue s "ARGUMENT_DEFINITION") ++
      .typeName true f.type.baseName :: ofDirectives s .empty "FIELD_DEFINITION" f.directives)

def ofEnumValueDefinition (e : EnumValueDefinition) : List Event :=
  .part e.directives :: ofDirectives s .empty "ENUM_VALUE" e.directives

/-- A definition of a type. Directives of the fields of an extended input type count as directives
of arguments. -/
def ofTypeDefinition (t : TypeDefinition) : List Event :=
  let directives (location : String) := ofDirectives s .empty location t.directives
  .definition (.type t) :: match t.body with
    | .scalar => directives "SCALAR"
    | .object interfaces fields =>
      interfaces.map (.typeName true) ++ directives "OBJECT" ++ fields.flatMap (ofFieldDefinition s)
    | .interface interfaces fields =>
      interfaces.map (.typeName true) ++ directives "INTERFACE" ++
        fields.flatMap (ofFieldDefinition s)
    | .union types => directives "UNION" ++ types.map (.typeName true)
    | .enum values => directives "ENUM" ++ values.flatMap (ofEnumValueDefinition s)
    | .input fields =>
      let location := if t.isExtension then "ARGUMENT_DEFINITION" else "INPUT_FIELD_DEFINITION"
      directives "INPUT_OBJECT" ++ fields.flatMap (ofInputValue s location)

def ofDefinition : Definition → List Event
  | .operation o => ofOperation s o
  | .fragment f => ofFragment s f
  | .schema d =>
    .definition (.schema d) ::
      (ofDirectives s .empty "SCHEMA" d.directives ++ d.roots.map (.typeName true ·.type))
  | .type t => ofTypeDefinition s t
  | .directive d =>
    .definition (.directive d) :: d.arguments.flatMap (ofInputValue s "ARGUMENT_DEFINITION")

/-- The parts of a document. -/
def events (d : Document) : List Event :=
  .openDocument :: (d.definitions.flatMap (ofDefinition s) ++ [.closeDocument])

end Validation
end EmbeddedGraphQL
