import EmbeddedGraphQL.Validation.Rule
import EmbeddedGraphQL.Text.Similar

/-!
Rules about values: each must fit the type that is expected at its place. A value that does not fit
as a whole is reported once, and nothing inside it is looked at.
-/
namespace EmbeddedGraphQL.Validation

/-- What is wrong with a value of a standard scalar. Other scalars take any value. -/
def scalarViolation? (scalar : String) (v : Value) : Option Violation :=
  let unfit := some (Violation.unfitForScalar scalar (Print.value v))
  match scalar, v with
  | "Int", .int text _ =>
    if Constant.isInt32 (Constant.intOf text) then none else some (.tooLargeForInt text)
  | "Int", _ => unfit
  | "Float", .int _ _ | "Float", .float _ _ => none
  | "Float", _ => unfit
  | "String", .string _ _ _ => none
  | "String", _ => unfit
  | "Boolean", .boolean _ _ => none
  | "Boolean", _ => unfit
  | "ID", .string _ _ _ | "ID", .int _ _ => none
  | "ID", _ => unfit
  | _, _ => none

/-- What is wrong with a value as a whole. -/
def wholeFinding (s : Schema) (expected : Option TypeExpr) (v : Value) : List Finding :=
  match expected with
  | none => []
  | some type =>
    let name := type.baseName
    let found := Print.value v
    let violation : Option Violation := match s.kind? name with
      | some (.scalar _) => scalarViolation? name v
      | some (.enum values) =>
        let names := values.map EnumValue.name
        match v with
        | .enum value _ =>
          if names.contains value then none
          else some (.unknownEnumValue name found (Text.similar found names))
        | _ => some (.notEnumValue name found (Text.similar found names))
      | _ => some (.unexpectedValue type.text found)
    violation.toList.map fun violation => ⟨violation, [v.span.start]⟩

/-- The value that an object gives a field; of several the last. -/
def fieldValue? (fields : List (Name × Value)) (name : String) : Option Value :=
  (fields.reverse.find? (·.1.value == name)).map (·.2)

def isNull : Value → Bool
  | .null _ => true
  | _ => false

/-- What is wrong with the keys of an object of an input type that takes exactly one. -/
def oneOfFindings (type : String) (fields : List (Name × Value)) (offset : Nat) : List Finding :=
  match (fields.map (·.1.value)).eraseDups with
  | [key] =>
    if (fieldValue? fields key).any isNull then [⟨.nullInOneOf type key, [offset]⟩] else []
  | _ => [⟨.notExactlyOneKey type, [offset]⟩]

/-- What is wrong with an object of an input type, apart from the values of its fields. -/
def objectFindings (s : Schema) (t : NamedType) (fields : List (Name × Value)) (offset : Nat) :
    List Finding :=
  let missing := t.inputFields.filter fun i =>
    s.isRequired i && (fieldValue? fields i.name).isNone
  (missing.map fun i => ⟨.missingInputField t.name i.name i.type.text, [offset]⟩) ++
    match t.kind with
    | .input _ true => oneOfFindings t.name fields offset
    | _ => []

/-- Values must fit the types of their places. -/
def fittingValues : Rule := .each fun x event =>
  match event with
  | .value c false v =>
    match v with
    | .variable _ _ => []
    | .null span =>
      match c.input with
      | some type =>
        if type.isNonNull then [⟨.unexpectedValue type.text "null", [span.start]⟩] else []
      | none => []
    | .list _ _ => if expectsList c.outerInput then [] else wholeFinding x.schema c.input v
    | .object fields span =>
      match inputObject? x.schema c.input with
      | some t => objectFindings x.schema t fields span.start
      | none => wholeFinding x.schema c.input v
    | v => wholeFinding x.schema c.input v
  | .inputField c false _ name _ =>
    match inputObject? x.schema c.outerInput, c.input with
    | some t, none =>
      let similar := Text.similar name.value (t.inputFields.map (·.name))
      [⟨.unknownInputField t.name name.value similar, [name.span.start]⟩]
    | _, _ => []
  | _ => []

/-- An object gives each field once. -/
def inputFieldNames : Rule := .each fun _ event =>
  match event with
  | .inputField _ _ earlier name _ => (seenBefore "input field" earlier name).2
  | _ => []

end EmbeddedGraphQL.Validation
