import EmbeddedGraphQL.Validation.Rule
import EmbeddedGraphQL.Schema.Soundness

/-!
Rules about variables: names, definitions and uses, and the types of both.
-/
namespace EmbeddedGraphQL.Validation

/-- Variables can only be of types that values are given of. -/
def inputVariables : Rule := .each fun x event =>
  match event with
  | .variableDefinition v =>
    match x.schema.typeOf? v.type with
    | some type =>
      if x.schema.isInputType type then []
      else [⟨.variableNotInput v.name.value type.text, [v.type.span.start]⟩]
    | none => []
  | _ => []

def variableNames : Rule := .each fun _ event =>
  match event with
  | .definition (.operation o) =>
    let findings := repeated "variable" (·.name.value) (·.name.span.start) o.variableDefinitions
    findings.map fun finding =>
      match finding with
      | ⟨.repeatedName noun name, offsets⟩ => ⟨.repeatedName noun ("$" ++ name), offsets⟩
      | other => other
  | _ => []

def definedVariables : Rule := .each fun x event =>
  match event with
  | .closeOperation o =>
    (usedVariables x o).filterMap fun use =>
      if o.variableDefinitions.any (·.name.value == use.name.value) then none
      else some
        ⟨.undefinedVariable use.name.value (o.name.map (·.value)), [use.span.start, o.span.start]⟩
  | _ => []

def usedDefinitions : Rule := .each fun x event =>
  match event with
  | .closeOperation o =>
    let used := (usedVariables x o).map (·.name.value)
    (o.variableDefinitions.filter fun v => !used.contains v.name.value).map fun v =>
      ⟨.unusedVariable v.name.value (o.name.map (·.value)), [v.span.start]⟩
  | _ => []

def isNullValue : Value → Bool
  | .null _ => true
  | _ => false

/-- Whether a variable may stand at a place. A default of the variable or of the place makes up
for a variable that may be null. -/
def isAllowed (s : Schema) (v : VariableDefinition) (type expected : TypeExpr)
    (hasDefault : Bool) : Bool :=
  if expected.isNonNull && !type.isNonNull then
    (hasDefault || v.default.any (!isNullValue ·)) && s.isSubtype type expected.nullable
  else s.isSubtype type expected

/-- Variables must fit where they are used. -/
def variablePositions : Rule := .each fun x event =>
  match event with
  | .closeOperation o =>
    (usedVariables x o).flatMap fun use =>
      let declared := o.variableDefinitions.reverse.find? (·.name.value == use.name.value)
      match declared, use.context.input with
      | some v, some expected =>
        let name := use.name.value
        let offsets := [v.span.start, use.span.start]
        let type := x.schema.typeOf? v.type
        let unfit := match type with
          | some type =>
            if isAllowed x.schema v type expected use.context.hasDefault then []
            else [⟨.unfitVariable name type.text expected.text, offsets⟩]
          | none => []
        let inOneOf := match use.context.outerInput with
          | some (.named outer) =>
            match x.schema.kind? outer with
            | some (.input _ true) =>
              match type with
              | some type =>
                if type.isNonNull then []
                else [⟨.nullableVariableInOneOf name type.text outer, offsets⟩]
              | none => []
            | _ => []
          | _ => []
        unfit ++ inOneOf
      | _, _ => []
  | _ => []

end EmbeddedGraphQL.Validation
