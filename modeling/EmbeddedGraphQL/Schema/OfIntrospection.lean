import EmbeddedGraphQL.Schema.IntrospectionError
import EmbeddedGraphQL.Schema.Order
import EmbeddedGraphQL.Document.Parser

/-!
Schemas from introspection results. Types are listed first, so that they can refer to each other,
and their parts are read when the types are brought in order: of several faults the first one met
on that way is reported.
-/
namespace EmbeddedGraphQL.Introspection

abbrev Outcome := Except IntrospectionError

/-! Parts of JSON values -/

/-- A member that must be there. -/
def member (j : Json) (key : String) : Outcome Json :=
  match j with
  | .obj members => match members.lookup key with
    | some value => .ok value
    | none => .error (.noMember key)
  | other => .error (.notIndexed other.kindName)

/-- A member that may be missing, which counts as null. -/
def optional (j : Json) (key : String) : Outcome Json :=
  match j with
  | .obj members => .ok ((members.lookup key).getD .null)
  | other => .error (.noMembers other.kindName)

/-- The items of a value: those of a list, the keys of an object, the characters of a text. -/
def items (j : Json) : Outcome (List Json) :=
  match j with
  | .arr items => .ok items
  | .obj members => .ok (members.map fun (key, _) => .str key)
  | .str text => .ok (text.toList.map fun c => .str (String.singleton c))
  | .unpaired points => .ok (points.map fun point => .ofPoints [point])
  | other => .error (.notListed other.kindName)

/-- A member that must not be null, with its items read later. -/
def demanded (j : Json) (key part : String) : Outcome Json := do
  match ← optional j key with
  | .null => throw (.missing part)
  | value => return value

/-- Lists and objects cannot be looked up. -/
def lookupKey (j : Json) : Outcome Unit :=
  match j with
  | .arr _ | .obj _ => .error (.noKey j.kindName)
  | _ => .ok ()

def isNameStart (c : Char) : Bool := c.isAlpha || c == '_'

def isNamePoint : CodePoint → Bool
  | .char c => Text.isNameChar c
  | .surrogate _ => false

/-- A name in the sense of the language. -/
def name (j : Json) : Outcome String :=
  match j with
  | .null => .error .noName
  | .str text =>
    match text.toList with
    | [] => .error .emptyName
    | first :: rest =>
      if !rest.all Text.isNameChar then .error (.nameCharacter text)
      else if !isNameStart first then .error (.nameStart text)
      else .ok text
  | .unpaired points =>
    .error (if points.tail.all isNamePoint then .nameStart (CodePoint.spelled points)
      else .nameCharacter (CodePoint.spelled points))
  | _ => .error .nameNotText

/-- A text that may be missing. One that is not well formed is spelled. -/
def text? (subject : String) (j : Json) : Outcome (Option String) :=
  match j with
  | .null => .ok none
  | .str text => .ok (some text)
  | .unpaired points => .ok (some (CodePoint.spelled points))
  | _ => .error (.notText subject)

/-- How a value that is no object is shown in messages. -/
def shown : Json → String
  | .bool b => if b then "True" else "False"
  | .null => "None"
  | .str text => Text.quoted text
  | .unpaired points => Text.quotedPoints points
  | other => other.compact

/-! Listed types -/

/-- A listed type whose parts, except enum values, are still to be read. -/
inductive Shell where
  | whole (t : NamedType)
  | composite (isObject : Bool) (description : Option String) (source : Json)
  | union (description : Option String) (members : Json)
  | input (description : Option String) (fields : Json) (isOneOf : Bool)
  deriving Inhabited

abbrev Listed := List (String × Shell)

def notReserved (j : Json) : Outcome Unit := do
  lookupKey j
  match j with
  | .str text => if (Standard.type? text).isSome then throw (.reserved text)
  | _ => return

/-- The standard type with a name, if there is one. -/
def standard? (j : Json) : Outcome (Option NamedType) := do
  lookupKey j
  match j with
  | .str text => return Standard.type? text
  | _ => return none

def typeDescription (source : Json) : Outcome (Option String) := do
  text? "The description" (← optional source "description")

def scalarShell (source key : Json) : Outcome Shell := do
  if let some t ← standard? key then return .whole t
  let name ← name key
  let description ← typeDescription source
  match ← optional source "specifiedByURL" with
  | .null => return .whole ⟨name, description, .scalar none⟩
  | .str address => return .whole ⟨name, description, .scalar (some address)⟩
  | .unpaired points =>
    return .whole ⟨name, description, .scalar (some (CodePoint.spelled points))⟩
  | other => throw (.addressNotText name (shown other))

def enumValue (source : Json) : Outcome (Json × EnumValue) := do
  let key ← member source "name"
  let description ← text? "The description of the enum value" (← optional source "description")
  let deprecation ←
    text? "The deprecation reason for the enum value" (← optional source "deprecationReason")
  lookupKey key
  return (key, ⟨shown key, description, deprecation⟩)

/-- Of several items with one key the last stays, at the place of the first. -/
def lastOfEach {α : Type} (key : α → String) (all : List α) : List α :=
  all.foldl (fun kept item =>
    if kept.any (key · == key item) then
      kept.map fun other => if key other == key item then item else other
    else kept ++ [item]) []

def enumShell (source key : Json) : Outcome Shell := do
  let values ← demanded source "enumValues" "enumValues"
  if let some t ← standard? key then return .whole t
  let read ← (← items values).mapM enumValue
  let name ← name key
  let description ← typeDescription source
  let values ← (lastOfEach (fun v => shown v.1) read).mapM fun (key, v) => do
    let name ← Introspection.name key
    if name == "true" || name == "false" || name == "null" then throw (.enumValueName name)
    return { v with name }
  return .whole ⟨name, description, .enum values⟩

/-- What a listed type is, told by its kind. -/
def shell (source key : Json) : Outcome Shell := do
  let kind ← match source with
    | .obj members => match members.lookup "kind" with
      | some kind => pure kind
      | none => throw .incompleteType
    | _ => throw .incompleteType
  lookupKey kind
  match kind with
  | .str "SCALAR" => scalarShell source key
  | .str "OBJECT" =>
    if let some t ← standard? key then return .whole t
    let _ ← name key
    return .composite true (← typeDescription source) source
  | .str "INTERFACE" =>
    notReserved key
    let _ ← name key
    return .composite false (← typeDescription source) source
  | .str "UNION" =>
    let members ← demanded source "possibleTypes" "possibleTypes"
    notReserved key
    let _ ← name key
    return .union (← typeDescription source) members
  | .str "ENUM" => enumShell source key
  | .str "INPUT_OBJECT" =>
    let fields ← demanded source "inputFields" "inputFields"
    notReserved key
    let _ ← name key
    return .input (← typeDescription source) fields (← optional source "isOneOf").isGiven
  | _ => throw .incompleteType

def listedType (source : Json) : Outcome (String × Shell) := do
  let key ← member source "name"
  let shell ← shell source key
  let name ← name key
  return (name, match Standard.type? name with
    | some t => .whole t
    | none => shell)

def listedTypes (schema : Json) : Outcome Listed := do
  return lastOfEach (·.1) (← (← items (← member schema "types")).mapM listedType)

/-! References -/

namespace Shell

def isObject : Shell → Bool
  | whole t => t.isObject
  | composite isObject _ _ => isObject
  | _ => false

def isInterface : Shell → Bool
  | composite isObject _ _ => !isObject
  | _ => false

def isInput : Shell → Bool
  | whole t => t.isInput
  | input .. => true
  | _ => false

def isOutput : Shell → Bool
  | whole t => t.isOutput
  | input .. => false
  | _ => true

end Shell

mutual

def depth : Json → Nat
  | .arr all => depths all + 1
  | .obj members => memberDepths members + 1
  | _ => 1

def depths : List Json → Nat
  | [] => 0
  | j :: rest => max (depth j) (depths rest)

def memberDepths : List (String × Json) → Nat
  | [] => 0
  | (_, j) :: rest => max (depth j) (memberDepths rest)

end

variable (listed : Listed)

/-- The type that a reference names, with the wrappers around it. -/
def typeRef : Nat → Json → Outcome TypeExpr
  | 0, _ => .error .wrappedTooDeep
  | fuel + 1, j => do
    match ← optional j "kind" with
    | .str "LIST" =>
      let item ← optional j "ofType"
      if !item.isGiven then throw .wrappedTooDeep
      return .list (← typeRef fuel item)
    | .str "NON_NULL" =>
      let item ← optional j "ofType"
      if !item.isGiven then throw .wrappedTooDeep
      let type ← typeRef fuel item
      if type.isNonNull then throw (.wrongKind type.text "nullable")
      return .nonNull type
    | _ =>
      let key ← optional j "name"
      if !key.isGiven then throw .unknownReference
      lookupKey key
      match key with
      | .str name =>
        if (listed.lookup name).isSome then return .named name else throw (.unknownType name)
      | .unpaired points => throw (.unknownType (CodePoint.spelled points))
      | other => throw (.unknownType (shown other))

def type (j : Json) : Outcome TypeExpr := typeRef listed (depth j + 1) j

/-- A reference to a type of a certain kind. -/
def namedRef (wanted : String) (fits : Shell → Bool) (j : Json) : Outcome String := do
  let type ← type listed j
  match type with
  | .named name =>
    if (listed.lookup name).any fits then return name else throw (.wrongKind name wanted)
  | other => throw (.wrongKind other.text wanted)

def isInputType (t : TypeExpr) : Bool := (listed.lookup t.baseName).any Shell.isInput

def isOutputType (t : TypeExpr) : Bool := (listed.lookup t.baseName).any Shell.isOutput

/-! Fields and arguments -/

/-- What is wrong with the text of a value in which a surrogate stands alone: the surrogate, which
no symbol may have, or something in front of it. -/
def unpairedValue (points : List CodePoint) : SyntaxError :=
  let before := (points.takeWhile (·.char?.isSome)).filterMap CodePoint.char?
  let stray := (points.drop before.length).head?.elim "" (Symbol.codePointText ·.toNat)
  match Document.parseValue before with
  | .error e => if e.offset < before.length then e else ⟨.strayCharacter stray, before.length⟩
  | .ok _ => ⟨.strayCharacter stray, before.length⟩

def defaultValue (j : Json) : Outcome (Option Value) :=
  match j with
  | .null => .ok none
  | .str text => match Document.parseValue text.toList with
    | .ok v => .ok (some v)
    | .error e => .error (.default text.toList e)
  | .unpaired points => .error (.default (CodePoint.spelled points).toList (unpairedValue points))
  | _ => .error (.notText "body")

/-- An input value with its key, which is not yet known to be a name. -/
def inputValue (place subject : String) (j : Json) : Outcome (Json × InputValue) := do
  let key ← member j "name"
  let type ← type listed (← member j "type")
  if !isInputType listed type then throw (.notInput place type.text)
  let default ← defaultValue (← optional j "defaultValue")
  let description ← text? (subject ++ " description") (← optional j "description")
  let deprecation ← text? (subject ++ " deprecation reason") (← optional j "deprecationReason")
  lookupKey key
  return (key, ⟨shown key, description, type, default, deprecation⟩)

def isText : Json → Bool
  | .str _ | .unpaired _ => true
  | _ => false

/-- Keyed items under their names; keys must be texts and names. -/
def named {α : Type} (problem : IntrospectionError) (rename : α → String → α)
    (all : List (Json × α)) : Outcome (List α) := do
  let kept := lastOfEach (fun item => shown item.1) all
  if !kept.all (isText ·.1) then throw problem
  kept.mapM fun (key, item) => return rename item (← name key)

def renameInput (i : InputValue) (name : String) : InputValue := { i with name }

def argumentList (directive : Option String) (all : Json) : Outcome (List InputValue) := do
  let read ← (← items all).mapM (inputValue listed "arguments" "Argument")
  named (.argumentNames directive) renameInput read

def field (j : Json) : Outcome (Json × Field) := do
  let key ← member j "name"
  let type ← type listed (← member j "type")
  if !isOutputType listed type then throw (.notOutput type.text)
  let arguments ← argumentList listed none (← demanded j "args" "field args")
  let description ← text? "The description" (← optional j "description")
  let deprecation ← text? "The deprecation reason" (← optional j "deprecationReason")
  lookupKey key
  return (key, ⟨shown key, description, arguments, type, deprecation⟩)

/-- Names the type and its part in which something went wrong. -/
def inside {α : Type} (type part : String) (outcome : Outcome α) : Outcome α :=
  outcome.mapError (.within type part)

def fields (name : String) (source : Json) : Outcome (List Field) := do
  let read ← inside name "fields" do
    (← items (← demanded source "fields" "fields")).mapM (field listed)
  named (.fieldNames name) (fun f name => { f with name }) read

def inputFields (name : String) (source : Json) : Outcome (List InputValue) := do
  let read ← inside name "fields" do
    (← items source).mapM (inputValue listed "input fields" "Input field")
  named (.fieldNames name) renameInput read

/-- Interfaces may leave out the interfaces that they implement, objects may not. -/
def interfaces (name : String) (isObject : Bool) (source : Json) : Outcome (List String) :=
  inside name "interfaces" do
    match ← optional source "interfaces" with
    | .null => if isObject then throw (.missing "interfaces") else return []
    | all => (← items all).mapM (namedRef listed "Interface" Shell.isInterface)

def members (name : String) (source : Json) : Outcome (List String) :=
  inside name "types" do (← items source).mapM (namedRef listed "Object" Shell.isObject)

/-- A listed type with all its parts. -/
def complete (name : String) : Shell → Outcome NamedType
  | .whole t => return t
  | .composite isObject description source => do
    let interfaces ← interfaces listed name isObject source
    let fields ← fields listed name source
    return ⟨name, description,
      if isObject then .object interfaces fields else .interface interfaces fields⟩
  | .union description source => return ⟨name, description, .union (← members listed name source)⟩
  | .input description source isOneOf =>
    return ⟨name, description, .input (← inputFields listed name source) isOneOf⟩

/-- Reads the parts of a type and of those it refers to, interfaces before fields, to meet faults
in order. The types that were seen are given. -/
def meetFaults : Nat → List String → String → Outcome (List String)
  | 0, seen, _ => return seen
  | fuel + 1, seen, name => do
    if seen.contains name then return seen
    let seen := seen ++ [name]
    match listed.lookup name with
    | none => return seen
    | some (.composite isObject _ source) =>
      let seen ← (← interfaces listed name isObject source).foldlM (meetFaults fuel) seen
      let fields ← fields listed name source
      (fields.flatMap NamedType.fieldReferences).foldlM (meetFaults fuel) seen
    | some shell =>
      let t ← complete listed name shell
      t.references.foldlM (meetFaults fuel) seen

/-! Directives and the schema -/

def directive (j : Json) : Outcome DirectiveType := do
  let args ← demanded j "args" "directive args"
  let places ← demanded j "locations" "directive locations"
  let key ← member j "name"
  let description ← optional j "description"
  let deprecation ← optional j "deprecationReason"
  let isRepeatable := (← optional j "isRepeatable")
  let hasFlag := (j.get? "isRepeatable").isSome
  let places ← items places
  let read ← (← items args).mapM (inputValue listed "arguments" "Argument")
  let name ← name key
  let known := Document.Parser.directiveLocations
  let locations ← places.mapM fun place =>
    match place with
    | .str text => if known.contains text then pure text else throw (.locations name)
    | _ => throw (.locations name)
  let arguments ← named (.argumentNames (some name)) renameInput read
  let isRepeatable ← match isRepeatable with
    | .bool b => pure b
    | _ => if hasFlag then throw (.repeatable name) else pure false
  let description ← text? (name ++ " description") description
  let deprecation ← text? (name ++ " deprecation reason") deprecation
  return { name, description, arguments, isRepeatable, locations, deprecation }

/-- The object that an operation starts from. -/
def root (schema : Json) (key : String) : Outcome (Option String) := do
  match ← optional schema key with
  | .null => return none
  | j => return some (← namedRef listed "Object" Shell.isObject j)

def directives (schema : Json) : Outcome (List DirectiveType) := do
  let all ← optional schema "directives"
  if all.isGiven then (← items all).mapM (directive listed) else return []

def ofSchema (schema : Json) : Outcome Schema := do
  let listed ← listedTypes schema
  let query ← root listed schema "queryType"
  let mutation ← root listed schema "mutationType"
  let subscription ← root listed schema "subscriptionType"
  let directives ← directives listed schema
  let description ← text? "Schema description" (← optional schema "description")
  let names := listed.map (·.1)
  let fuel := names.length + 1
  let _ ← names.foldlM (fun seen name => meetFaults listed fuel (seen.erase name) name) names
  let types ← listed.mapM fun (name, shell) => complete listed name shell
  return Schema.assemble description types directives query mutation subscription

end Introspection

/-- The schema that an introspection result describes. -/
def Schema.ofIntrospection (result : Json) : Except IntrospectionError Schema :=
  match result.get? "data" with
  | some (.obj members) =>
    match members.lookup "__schema" with
    | some (.obj schema) => Introspection.ofSchema (.obj schema)
    | _ => .error .noSchema
  | _ => .error .noData

end EmbeddedGraphQL
