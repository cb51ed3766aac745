import EmbeddedGraphQL.Validation.Rule
import EmbeddedGraphQL.Text.Similar

/-!
Rules about directives and arguments: where directives stand, how often, and with which arguments.
A document may define directives of its own, which take the place of those of the schema.
-/
namespace EmbeddedGraphQL.Validation

/-- How a directive is used. Required arguments are given with their types. -/
structure Signature where
  arguments : List String
  required : List (String × String)
  isRepeatable : Bool
  locations : List String
  deriving DecidableEq, Repr, Inhabited

def Signature.ofSchema (s : Schema) (d : DirectiveType) : Signature where
  arguments := d.arguments.map (·.name)
  required := (d.arguments.filter s.isRequired).map fun i => (i.name, i.type.text)
  isRepeatable := d.isRepeatable
  locations := d.locations

def Signature.ofDefinition (d : DirectiveDefinition) : Signature where
  arguments := d.arguments.map (·.name.value)
  required := d.arguments.filterMap fun i =>
    let type := TypeExpr.ofRef i.type
    if type.isNonNull && i.default.isNone then some (i.name.value, type.text) else none
  isRepeatable := d.repeatable
  locations := d.locations.map (·.value)

/-- The signature of a directive, if document or schema define it. -/
def signature? (x : Setting) (name : String) : Option Signature :=
  let own := x.document.definitions.reverse.findSome? fun
    | .directive d => if d.name.value == name then some d else none
    | _ => none
  match own with
  | some d => some (.ofDefinition d)
  | none => (x.schema.directive? name).map (.ofSchema x.schema)

/-- Directives must be known and stand where they are allowed. -/
def knownDirectives : Rule := .each fun x event =>
  match event with
  | .directive location d =>
    let name := d.name.value
    let locations := ((signature? x name).map Signature.locations).getD []
    if locations.isEmpty then [⟨.unknownDirective name, [d.span.start]⟩]
    else if locations.contains location then []
    else [⟨.misplacedDirective name location, [d.span.start]⟩]
  | _ => []

/-- Whose directives count together: those of all parts of the schema definition, of all parts of a
type, or of one node. -/
inductive DirectiveGroup where
  | schema
  | type (name : String)
  | node
  deriving DecidableEq, Repr

def directiveGroup : Event → DirectiveGroup × List Directive
  | .definition (.schema d) => (.schema, d.directives)
  | .definition (.type t) => (.type t.name.value, t.directives)
  | .definition (.operation o) => (.node, o.directives)
  | .definition (.fragment f) => (.node, f.directives)
  | .variableDefinition v => (.node, v.directives)
  | .part directives => (.node, directives)
  | .field _ f => (.node, f.directives)
  | .spread _ _ directives _ => (.node, directives)
  | .inline _ _ directives _ => (.node, directives)
  | _ => (.node, [])

/-- The directives that may stand only once, each with the place of its first use. -/
def firstUses (isUnique : String → Bool) (seen : List (String × Nat)) (ds : List Directive) :
    List (String × Nat) × List Finding :=
  ds.foldl (fun (seen, found) d =>
    let name := d.name.value
    if !isUnique name then (seen, found)
    else match seen.lookup name with
      | some first => (seen, found ++ [⟨.repeatedDirective name, [first, d.span.start]⟩])
      | none => (seen ++ [(name, d.span.start)], found)) (seen, [])

/-- A directive that is not repeatable stands once at a place. -/
def directivesOnce : Rule := fun x =>
  let isUnique (name : String) := (signature? x name).any (!·.isRepeatable)
  Rule.remembering ([] : List (DirectiveGroup × List (String × Nat))) (fun shared event =>
    let (group, ds) := directiveGroup event
    match group with
    | .node => (shared, (firstUses isUnique [] ds).2)
    | group =>
      let (seen, found) := firstUses isUnique ((shared.lookup group).getD []) ds
      ((group, seen) :: shared.filter (·.1 != group), found)) x

/-! Arguments -/

/-- Arguments must belong to the field or directive that they are given to. -/
def knownArguments : Rule := .each fun x event =>
  match event with
  | .argument c false field a =>
    match c.parent, c.field with
    | some parent, some f =>
      let similar := Text.similar a.name.value (f.arguments.map (·.name))
      [⟨.unknownFieldArgument a.name.value parent.name field similar, [a.span.start]⟩]
    | _, _ => []
  | .directive _ d =>
    match signature? x d.name.value with
    | none => []
    | some known =>
      (d.arguments.filter fun a => !known.arguments.contains a.name.value).map fun a =>
        ⟨.unknownDirectiveArgument a.name.value d.name.value
          (Text.similar a.name.value known.arguments), [a.span.start]⟩
  | _ => []

def repeatedArguments (arguments : List Argument) : List Finding :=
  repeated "argument" (·.name.value) (·.name.span.start) arguments

def argumentNames : Rule := .each fun _ event =>
  match event with
  | .field _ f => repeatedArguments f.arguments
  | .directive _ d => repeatedArguments d.arguments
  | _ => []

/-- Required arguments must be given. -/
def requiredArguments : Rule := .each fun x event =>
  match event with
  | .closeField c f =>
    let inputs := (c.field.map Field.arguments).getD []
    (inputs.filter fun i =>
      x.schema.isRequired i && !f.arguments.any (·.name.value == i.name)).map fun i =>
        ⟨.missingFieldArgument f.name.value i.name i.type.text, [f.span.start]⟩
  | .closeDirective d =>
    let required := ((signature? x d.name.value).map Signature.required).getD []
    (required.filter fun (name, _) => !d.arguments.any (·.name.value == name)).map
      fun (name, type) => ⟨.missingDirectiveArgument d.name.value name type, [d.span.start]⟩
  | _ => []

end EmbeddedGraphQL.Validation
