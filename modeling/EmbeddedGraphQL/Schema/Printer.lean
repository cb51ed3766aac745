import EmbeddedGraphQL.Schema.Constant

/-!
Schemas written as definitions. What every schema has is left out, and descriptions stand before
what they describe.
-/
namespace EmbeddedGraphQL.SchemaPrint

/-- Defaults that the schema cannot write are the only failure. -/
abbrev Outcome := Except Constant.Unwritable

def indentLines (margin text : String) : String :=
  String.ofList (text.toList.flatMap fun c => if c = '\n' then '\n' :: margin.toList else [c])

/-- A description on lines of its own; items after the first of a block are set apart. -/
def description (margin : String) (isFirst : Bool) : Option String → String
  | none => ""
  | some text =>
    (if margin != "" && !isFirst then "\n" ++ margin else margin) ++
      indentLines margin (Print.description text) ++ "\n"

def deprecated : Option String → String
  | none => ""
  | some reason =>
    if reason == Standard.defaultDeprecationReason then " @deprecated"
    else s!" @deprecated(reason: {Print.quoted reason})"

def specifiedBy : Option String → String
  | none => ""
  | some address => s!" @specifiedBy(url: {Print.quoted address})"

def braced (lines : List String) : String :=
  if lines.isEmpty then "" else " \x7b\n" ++ "\n".intercalate lines ++ "\n\x7d"

/-- Items with their descriptions and a margin; `write` gives the text of one item. -/
def items {α : Type} (margin : String) (describe : α → Option String) (write : α → Outcome String)
    (all : List α) : Outcome (List String) :=
  all.zipIdx.mapM fun (item, i) => do
    return description margin (i == 0) (describe item) ++ margin ++ (← write item)

variable (s : Schema)

def inputValue (i : InputValue) : Outcome String := do
  let default ← match i.default, s.default? i with
    | some v, some c => Constant.text? s (s.nestingBound i.type v) i.type c
    | _, _ => pure none
  let written := match default with
    | some text => " = " ++ text
    | none => ""
  return i.name ++ ": " ++ i.type.text ++ written ++ deprecated i.deprecation

/-- Arguments stand on one line unless one of them is described. -/
def arguments (margin : String) (inputs : List InputValue) : Outcome String := do
  if inputs.isEmpty then return ""
  else if inputs.all (·.description.isNone) then
    return "(" ++ ", ".intercalate (← inputs.mapM (inputValue s)) ++ ")"
  else
    let lines ← items ("  " ++ margin) (·.description) (inputValue s) inputs
    return "(\n" ++ "\n".intercalate lines ++ "\n" ++ margin ++ ")"

def field (f : Field) : Outcome String := do
  return f.name ++ (← arguments s "  " f.arguments) ++ ": " ++ f.type.text ++
    deprecated f.deprecation

def fieldBlock (fields : List Field) : Outcome String := do
  return braced (← items "  " (·.description) (field s) fields)

def implementing (interfaces : List String) : String :=
  if interfaces.isEmpty then "" else " implements " ++ " & ".intercalate interfaces

def namedType (t : NamedType) : Outcome String := do
  let text ← match t.kind with
    | .scalar address => pure ("scalar " ++ t.name ++ specifiedBy address)
    | .object interfaces fields => do
      pure ("type " ++ t.name ++ implementing interfaces ++ (← fieldBlock s fields))
    | .interface interfaces fields => do
      pure ("interface " ++ t.name ++ implementing interfaces ++ (← fieldBlock s fields))
    | .union members =>
      let types := if members.isEmpty then "" else " = " ++ " | ".intercalate members
      pure ("union " ++ t.name ++ types)
    | .enum values => do
      let lines ← items "  " EnumValue.description
        (fun v => pure (v.name ++ deprecated v.deprecation)) values
      pure ("enum " ++ t.name ++ braced lines)
    | .input fields isOneOf => do
      let lines ← items "  " InputValue.description (inputValue s) fields
      pure ("input " ++ t.name ++ (if isOneOf then " @oneOf" else "") ++ braced lines)
  return description "" true t.description ++ text

def directive (d : DirectiveType) : Outcome String := do
  return description "" true d.description ++ "directive @" ++ d.name ++
    (← arguments s "" d.arguments) ++ deprecated d.deprecation ++
    (if d.isRepeatable then " repeatable" else "") ++ " on " ++ " | ".intercalate d.locations

/-- Whether all roots have their usual names. -/
def hasUsualRoots : Bool :=
  s.query.all (· == "Query") && s.mutation.all (· == "Mutation") &&
    s.subscription.all (· == "Subscription")

/-- The schema definition; it is left out if it says nothing new. -/
def schemaDefinition : List String :=
  if s.description.isNone && hasUsualRoots s then []
  else
    let root (operation : OperationKind) :=
      (s.rootName operation).toList.map fun name => s!"  {operation.word}: {name}"
    let lines := root .query ++ root .mutation ++ root .subscription
    [description "" true s.description ++ "schema \x7b\n" ++ "\n".intercalate lines ++ "\n\x7d"]

/-- A schema as text. -/
def schema : Outcome String := do
  let own (t : NamedType) := !Standard.isScalarName t.name && !Standard.isIntrospectionName t.name
  let directives ←
    (s.directives.filter fun d => !Standard.isDirectiveName d.name).mapM (directive s)
  let types ← (s.types.filter own).mapM (namedType s)
  return "\n\n".intercalate (schemaDefinition s ++ directives ++ types)

end EmbeddedGraphQL.SchemaPrint
