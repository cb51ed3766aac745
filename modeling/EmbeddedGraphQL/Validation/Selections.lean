import EmbeddedGraphQL.Validation.Rule
import EmbeddedGraphQL.Text.Similar

/-!
Rules about types and what is selected from them.
-/
namespace EmbeddedGraphQL.Validation

def definedTypeNames (d : Document) : List String :=
  d.definitions.filterMap fun
    | .type t => if t.isExtension then none else some t.name.value
    | _ => none

/-- Types must be known. Definitions of types may use the standard types without the schema. -/
def knownTypes : Rule := fun x =>
  let known := x.schema.types.map (·.name) ++ definedTypeNames x.document
  let standard := Standard.types.map (·.name)
  Rule.each (fun _ event =>
    match event with
    | .typeName inTypeSystem name =>
      if known.contains name.value || (inTypeSystem && standard.contains name.value) then []
      else
        let options := if inTypeSystem then standard ++ known else known
        [⟨.unknownType name.value (Text.similar name.value options), [name.span.start]⟩]
    | _ => []) x

def isKnownNonComposite (s : Schema) (name : String) : Bool :=
  (s.type? name).any (!·.isComposite)

/-- Only objects, interfaces and unions can be conditions of fragments. -/
def compositeConditions : Rule := .each fun x event =>
  match event with
  | .inline _ (some type) _ _ =>
    if isKnownNonComposite x.schema type.value then
      [⟨.conditionNotComposite none type.value, [type.span.start]⟩]
    else []
  | .definition (.fragment f) =>
    if isKnownNonComposite x.schema f.type.value then
      [⟨.conditionNotComposite (some f.name.value) f.type.value, [f.type.span.start]⟩]
    else []
  | _ => []

/-- Fields of scalars and enums have no selections, all others need some. -/
def leafSelections : Rule := .each fun x event =>
  match event with
  | .field c f =>
    match c.type with
    | none => []
    | some type =>
      if (x.schema.type? type.baseName).any (·.isLeaf) then
        match f.braces with
        | some braces => [⟨.selectionsOnLeaf f.name.value type.text, [braces.start]⟩]
        | none => []
      else if f.braces.isNone then [⟨.selectionsMissing f.name.value type.text, [f.span.start]⟩]
      else []
  | _ => []

/-! Unknown fields -/

/-- A type that has a missing field, with the number of possible types that speak for it. -/
structure Candidate where
  type : NamedType
  votes : Nat

/-- Counts a vote for a type. -/
def vote (candidates : List Candidate) (t : NamedType) : List Candidate :=
  if candidates.any (·.type.name == t.name) then
    candidates.map fun c => if c.type.name == t.name then { c with votes := c.votes + 1 } else c
  else candidates ++ [⟨t, 1⟩]

/-- Candidates with more votes come first, then interfaces before the types they stand for, then
names in natural order. -/
def Candidate.before (a b : Candidate) : Bool :=
  if a.votes != b.votes then decide (b.votes < a.votes)
  else if a.type.isInterface && Schema.isSubType a.type b.type then true
  else if b.type.isInterface && Schema.isSubType b.type a.type then false
  else Text.naturalCompare a.type.name b.type.name != .gt

/-- The types that a fragment could be on to select a field from an abstract type. -/
def typesWithField (s : Schema) (t : NamedType) (field : String) : List String :=
  let owners := (s.possibleTypes t).filter fun o => (o.field? field).isSome
  let voters := owners.flatMap fun o =>
    o :: (o.interfaces.filterMap s.type?).filter fun i => (i.field? field).isSome
  let candidates := voters.foldl vote []
  (candidates.mergeSort Candidate.before).map (·.type.name)

/-- Fields must belong to the type they are selected from. -/
def knownFields : Rule := .each fun x event =>
  match event with
  | .field c f =>
    match c.parent, c.field with
    | some parent, none =>
      let name := f.name.value
      [⟨.unknownField name parent.name (typesWithField x.schema parent name)
        (Text.similar name (parent.fields.map (·.name))), [f.span.start]⟩]
    | _, _ => []
  | _ => []

/-! Introspection -/

/-- Fields of introspection types that are lists of parts of the schema. -/
def listFields : List String := ["fields", "interfaces", "possibleTypes", "inputFields"]

mutual

/-- Whether three of these lists lie in each other below a selection. `entered` are the fragments
that the way leads through. -/
def isTooDeep (d : Document) : Nat → List String → Nat → Selection → Bool
  | 0, _, _, _ => false
  | fuel + 1, entered, depth, selection =>
    match selection with
    | .field _ name _ _ _ selections _ =>
      let depth := if listFields.contains name.value then depth + 1 else depth
      decide (3 ≤ depth && listFields.contains name.value) ||
        isAnyTooDeep d fuel entered depth selections
    | .inline _ _ _ selections _ => isAnyTooDeep d fuel entered depth selections
    | .spread name _ _ =>
      if entered.contains name.value then false
      else match d.fragment? name.value with
        | some f => isAnyTooDeep d fuel (name.value :: entered) depth f.selections.items
        | none => false

def isAnyTooDeep (d : Document) : Nat → List String → Nat → List Selection → Bool
  | 0, _, _, _ => false
  | fuel + 1, entered, depth, selections => selections.any (isTooDeep d fuel entered depth)

end

/-- Introspection must not nest too deeply. Fields inside a reported one are not looked at. -/
def introspectionDepth : Rule := fun x =>
  Rule.remembering 0 (fun reportedTo event =>
    match event with
    | .field _ f =>
      let isStart := f.name.value == "__schema" || f.name.value == "__type"
      let selection := Selection.field f.aliasName f.name f.arguments f.directives f.braces
        f.selections f.span
      if isStart && reportedTo ≤ f.span.start &&
          isTooDeep x.document (2 * x.document.length + 2) [] 0 selection then
        (f.span.stop, [⟨.introspectionTooDeep, [f.span.start]⟩])
      else (reportedTo, [])
    | _ => (reportedTo, [])) x

end EmbeddedGraphQL.Validation
