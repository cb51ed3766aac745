import EmbeddedGraphQL.Validation.Rule

/-!
Rules about operations: which definitions a document may have, their names, and what a subscription
may select.
-/
namespace EmbeddedGraphQL.Validation

/-- What a definition that cannot be run is called; none for a schema. -/
def definitionName : Definition → Option String
  | .type t => some t.name.value
  | .directive d => some d.name.value
  | _ => none

def isExecutable : Definition → Bool
  | .operation _ | .fragment _ => true
  | _ => false

/-- Only operations and fragments can be run. -/
def onlyExecutable : Rule := .each fun x event =>
  match event with
  | .openDocument =>
    (x.document.definitions.filter (!isExecutable ·)).map fun d =>
      ⟨.notExecutable (definitionName d), [d.span.start]⟩
  | _ => []

def operationNames : Rule := .remembering [] fun known event =>
  match event with
  | .definition (.operation o) =>
    match o.name with
    | some name => seenBefore "operation" known name
    | none => (known, [])
  | _ => (known, [])

def anonymousAlone : Rule := .each fun x event =>
  match event with
  | .definition (.operation o) =>
    if o.name.isNone && 1 < x.document.operations.length then
      [⟨.anonymousAmongOthers, [o.span.start]⟩]
    else []
  | _ => []

/-! The top level of a subscription -/

/-- Whether a selection is kept before any variables are known. -/
def isIncluded (ds : List Directive) : Except ArgumentProblem Bool := do
  let condition (name : String) := (Directive.condition? name ds).mapError (·.1)
  if (← condition "skip") = some true then return false
  if (← condition "include") = some false then return false
  return true

/-- Whether a fragment on a type applies to objects of the root type. -/
def appliesTo (s : Schema) (root : NamedType) (type : Option Name) : Bool :=
  match type with
  | none => true
  | some name =>
    name.value == root.name ||
      (s.type? name.value).any fun t => t.isAbstract && Schema.isSubType t root

/-- Fields by their name in the answer, and the fragments that were looked into. -/
structure Collected where
  fields : List (String × List FieldUse)
  visited : List String

def Collected.add (found : Collected) (f : FieldUse) : Collected :=
  if found.fields.any (·.1 == f.key) then
    { found with fields := found.fields.map fun (key, fields) =>
        if key == f.key then (key, fields ++ [f]) else (key, fields) }
  else { found with fields := found.fields ++ [(f.key, [f])] }

/-- Collects the fields at the top of some selections, fragments included. No fragment is entered
twice, so nesting is bounded by the length of the document. -/
def collectFields (x : Setting) (root : NamedType) :
    Nat → List Selection → Collected → Except ArgumentProblem Collected
  | 0, _, found => .ok found
  | fuel + 1, selections, found =>
    selections.foldlM (fun found selection => do
      match selection with
      | .field aliasName name arguments directives braces selections span =>
        if ← isIncluded directives then
          return found.add { aliasName, name, arguments, directives, braces, selections, span }
        else return found
      | .inline type directives _ selections _ =>
        if (← isIncluded directives) && appliesTo x.schema root type then
          collectFields x root fuel selections found
        else return found
      | .spread name directives _ =>
        if found.visited.contains name.value then return found
        else if ← isIncluded directives then
          let found := { found with visited := name.value :: found.visited }
          match x.document.fragment? name.value with
          | some f =>
            if appliesTo x.schema root (some f.type) then
              collectFields x root fuel f.selections.items found
            else return found
          | none => return found
        else return found) found

def starts (fields : List FieldUse) : List Nat := fields.map (·.span.start)

/-- A subscription selects one field, which must not belong to introspection. -/
def singleFieldSubscriptions : Rule := .each fun x event =>
  match event with
  | .definition (.operation o) =>
    match o.kind, x.schema.root? .subscription with
    | .subscription, some root =>
      let name := o.name.map (·.value)
      match collectFields x root (x.document.length + 1) o.selections.items ⟨[], []⟩ with
      | .error problem => [⟨.undecided problem, []⟩]
      | .ok found =>
        let extra := (found.fields.drop 1).flatMap (·.2)
        (if extra.isEmpty then [] else [⟨.severalSubscriptionFields name, starts extra⟩]) ++
          found.fields.filterMap fun (_, fields) =>
            if fields.head?.any fun f => f.name.value.startsWith "__" then
              some ⟨.subscriptionIntrospection name, starts fields⟩
            else none
    | _, _ => []
  | _ => []

end EmbeddedGraphQL.Validation
