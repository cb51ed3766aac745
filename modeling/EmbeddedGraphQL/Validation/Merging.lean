import EmbeddedGraphQL.Validation.Rule
import EmbeddedGraphQL.Text.Similar

/-!
Fields that get the same name in an answer must be mergeable: they are the same field with the same
arguments, or they can never apply to the same object, and in either case their types and their own
selections agree. Selection sets are compared pair by pair, including those of fragments; pairs of
fragments that were compared before are not compared again.
-/
namespace EmbeddedGraphQL.Validation

/-- A selected field with the type that it is selected from. -/
structure PlacedField where
  parent : Option NamedType
  use : FieldUse
  field : Option Field
  deriving Inhabited

/-- The fields of a selection set by their names in the answer, and the fragments spread in it. -/
structure FieldMap where
  source : Span
  fields : List (String × List PlacedField)
  spreads : List String
  deriving Inhabited

/-- Two sets of fields that conflict, named by where they start. -/
structure Clash where
  name : String
  reason : Conflict
  first : List Nat
  second : List Nat
  deriving Inhabited

/-- Field maps that were built, and pairs of fragments that were compared, with whether their
fields could not apply to the same object. -/
structure Memory where
  maps : List (Span × FieldMap)
  compared : List ((String × String) × Bool)

abbrev Comparing := StateM Memory

/-- A pair in a fixed order. -/
def pairKey (a b : String) : String × String := if a < b then (a, b) else (b, a)

/-- Whether a comparison is done: one of fields that may apply together covers the other case. -/
def isCompared (a b : String) (exclusive : Bool) : Comparing Bool := do
  match (← get).compared.lookup (pairKey a b) with
  | none => return false
  | some known => return exclusive || !known

def markCompared (a b : String) (exclusive : Bool) : Comparing Unit :=
  modify fun m => { m with compared := (pairKey a b, exclusive) :: m.compared }

/-! Field maps -/

def FieldMap.add (map : FieldMap) (f : PlacedField) : FieldMap :=
  let key := f.use.key
  if map.fields.any (·.1 == key) then
    { map with fields := map.fields.map fun (name, fields) =>
        if name == key then (name, fields ++ [f]) else (name, fields) }
  else { map with fields := map.fields ++ [(key, [f])] }

def FieldMap.addSpread (map : FieldMap) (name : String) : FieldMap :=
  if map.spreads.contains name then map else { map with spreads := map.spreads ++ [name] }

/-- The fields of selections from a type; fragments without a name are looked into. -/
def fieldsOf (s : Schema) (parent : Option NamedType) (map : FieldMap) :
    List Selection → FieldMap
  | [] => map
  | .field aliasName name arguments directives braces selections span :: rest =>
    let use : FieldUse := { aliasName, name, arguments, directives, braces, selections, span }
    fieldsOf s parent (map.add ⟨parent, use, parent.bind (·.field? name.value)⟩) rest
  | .spread name _ _ :: rest => fieldsOf s parent (map.addSpread name.value) rest
  | .inline type _ _ selections _ :: rest =>
    let inner := match type with
      | some name => s.type? name.value
      | none => parent
    fieldsOf s parent (fieldsOf s inner map selections) rest

/-- The field map of a selection set, built once for each set. -/
def fieldMap (x : Setting) (parent : Option NamedType) (source : Span)
    (selections : List Selection) : Comparing FieldMap := do
  match (← get).maps.lookup source with
  | some map => return map
  | none =>
    let map := fieldsOf x.schema parent ⟨source, [], []⟩ selections
    modify fun m => { m with maps := (source, map) :: m.maps }
    return map

def fragmentMap (x : Setting) (f : Fragment) : Comparing FieldMap :=
  fieldMap x (x.schema.type? f.type.value) f.selections.span f.selections.items

/-! Comparing fields -/

mutual

/-- A value with the fields of its objects in natural order. -/
def sortedValue : Value → Value
  | .list items span => .list (sortedValues items) span
  | .object fields span =>
    let sorted := (sortedFields fields).mergeSort fun a b =>
      Text.naturalCompare a.1.value b.1.value != .gt
    .object sorted span
  | v => v

def sortedValues : List Value → List Value
  | [] => []
  | v :: rest => sortedValue v :: sortedValues rest

def sortedFields : List (Name × Value) → List (Name × Value)
  | [] => []
  | (name, v) :: rest => (name, sortedValue v) :: sortedFields rest

end

def sameArguments (a b : FieldUse) : Bool :=
  a.arguments.length == b.arguments.length && a.arguments.all fun argument =>
    (b.arguments.reverse.find? (·.name.value == argument.name.value)).any fun other =>
      Print.value (sortedValue argument.value) == Print.value (sortedValue other.value)

/-- Whether answers of two types look different. -/
def typesConflict (s : Schema) : TypeExpr → TypeExpr → Bool
  | .list a, .list b | .nonNull a, .nonNull b => typesConflict s a b
  | .named a, .named b =>
    ((s.type? a).any (·.isLeaf) || (s.type? b).any (·.isLeaf)) && a != b
  | _, _ => true

/-- Whether two fields can never apply to the same object. -/
def areExclusive (a b : PlacedField) : Bool :=
  match a.parent, b.parent with
  | some s, some t => s.name != t.name && s.isObject && t.isObject
  | _, _ => false

/-- The conflict of two fields themselves. -/
def ownConflict (s : Schema) (exclusive : Bool) (a b : PlacedField) : Option Conflict :=
  let nameA := a.use.name.value
  let nameB := b.use.name.value
  if !exclusive && nameA != nameB then some (.names nameA nameB)
  else if !exclusive && !sameArguments a.use b.use then some .arguments
  else match a.field, b.field with
    | some f, some g =>
      if typesConflict s f.type g.type then some (.types f.type.text g.type.text) else none
    | _, _ => none

mutual

/-- The clash of two fields with one name. -/
def clash? (x : Setting) : Nat → Bool → String → PlacedField → PlacedField →
    Comparing (Option Clash)
  | 0, _, _, _, _ => return none
  | fuel + 1, exclusive, name, a, b => do
    let exclusive := exclusive || areExclusive a b
    match ownConflict x.schema exclusive a b with
    | some reason => return some ⟨name, reason, [a.use.span.start], [b.use.span.start]⟩
    | none =>
      match a.use.braces, b.use.braces with
      | some bracesA, some bracesB =>
        let typeOf (f : PlacedField) := f.field.bind fun f => x.schema.type? f.type.baseName
        let mapA ← fieldMap x (typeOf a) bracesA a.use.selections
        let mapB ← fieldMap x (typeOf b) bracesB b.use.selections
        let found ← betweenSets x fuel exclusive mapA mapB
        let whole : Clash := {
          name
          reason := .inside (found.map fun c => (c.name, c.reason))
          first := a.use.span.start :: found.flatMap (·.first)
          second := b.use.span.start :: found.flatMap (·.second) }
        return if found.isEmpty then none else some whole
      | _, _ => return none

/-- Clashes of fields in two field maps, without fragments. -/
def betweenMaps (x : Setting) : Nat → Bool → FieldMap → FieldMap → Comparing (List Clash)
  | 0, _, _, _ => return []
  | fuel + 1, exclusive, mapA, mapB => do
    let found ← mapA.fields.mapM fun (name, fieldsA) => do
      let fieldsB := (mapB.fields.lookup name).getD []
      let found ← fieldsA.mapM fun a => do
        let found ← fieldsB.mapM fun b => clash? x fuel exclusive name a b
        return found.filterMap id
      return found.flatten
    return found.flatten

/-- Clashes of a field map with a fragment and the fragments spread in that. -/
def withFragment (x : Setting) : Nat → Bool → FieldMap → String → Comparing (List Clash)
  | 0, _, _, _ => return []
  | fuel + 1, exclusive, map, name => do
    match x.document.fragment? name with
    | none => return []
    | some f =>
      let other ← fragmentMap x f
      if map.source = other.source then return []
      let own ← betweenMaps x fuel exclusive map other
      let deeper ← other.spreads.mapM fun spread => do
        if ← isCompared spread name exclusive then return []
        markCompared spread name exclusive
        withFragment x fuel exclusive map spread
      return own ++ deeper.flatten

/-- Clashes of two fragments and the fragments spread in them. -/
def betweenFragments (x : Setting) : Nat → Bool → String → String → Comparing (List Clash)
  | 0, _, _, _ => return []
  | fuel + 1, exclusive, nameA, nameB => do
    if nameA == nameB then return []
    if ← isCompared nameA nameB exclusive then return []
    markCompared nameA nameB exclusive
    match x.document.fragment? nameA, x.document.fragment? nameB with
    | some a, some b =>
      let mapA ← fragmentMap x a
      let mapB ← fragmentMap x b
      let own ← betweenMaps x fuel exclusive mapA mapB
      let second ← mapB.spreads.mapM fun spread =>
        betweenFragments x fuel exclusive nameA spread
      let first ← mapA.spreads.mapM fun spread =>
        betweenFragments x fuel exclusive spread nameB
      return own ++ second.flatten ++ first.flatten
    | _, _ => return []

/-- Clashes of two selection sets with all their fragments. -/
def betweenSets (x : Setting) : Nat → Bool → FieldMap → FieldMap → Comparing (List Clash)
  | 0, _, _, _ => return []
  | fuel + 1, exclusive, mapA, mapB => do
    let own ← betweenMaps x fuel exclusive mapA mapB
    let first ← mapB.spreads.mapM (withFragment x fuel exclusive mapA)
    let second ← mapA.spreads.mapM (withFragment x fuel exclusive mapB)
    let both ← mapA.spreads.mapM fun a => do
      let found ← mapB.spreads.mapM (betweenFragments x fuel exclusive a)
      return found.flatten
    return own ++ first.flatten ++ second.flatten ++ both.flatten

end

/-- Pairs of items, each with those after it. -/
def laterPairs {α : Type} : List α → List (α × List α)
  | [] => []
  | a :: rest => (a, rest) :: laterPairs rest

/-- Clashes inside one selection set. -/
def withinSet (x : Setting) (fuel : Nat) (map : FieldMap) : Comparing (List Clash) := do
  let own ← map.fields.mapM fun (name, fields) => do
    let found ← (laterPairs fields).mapM fun (a, others) => do
      let found ← others.mapM fun b => clash? x fuel false name a b
      return found.filterMap id
    return found.flatten
  let inFragments ← (laterPairs map.spreads).mapM fun (name, others) => do
    let first ← withFragment x fuel false map name
    let second ← others.mapM (betweenFragments x fuel false name)
    return first ++ second.flatten
  return own.flatten ++ inFragments.flatten

/-- A bound for the nesting of comparisons: fields nest as deeply as the document, and between two
of them each pair of fragments can be entered in both cases. -/
def comparingFuel (d : Document) : Nat :=
  4 * (d.length + 1) * (2 * d.fragments.length * d.fragments.length + d.fragments.length + 2)

/-- Fields with one name must be mergeable. -/
def mergeableFields : Rule := fun x =>
  let fuel := comparingFuel x.document
  Rule.remembering (⟨[], []⟩ : Memory) (fun memory event =>
    match event with
    | .selections c braces items =>
      let search : Comparing (List Clash) := do
        let map ← fieldMap x c.parent braces items
        withinSet x fuel map
      let (found, memory) := search.run memory
      (memory, found.map fun c => ⟨.conflict c.name c.reason, c.first ++ c.second⟩)
    | _ => (memory, [])) x

end EmbeddedGraphQL.Validation
