import EmbeddedGraphQL.Schema.Standard

/-!
The order of the types of a schema. Each listed type is followed by the types that it refers to and
that are not listed themselves, and these by theirs; last come the types that only roots, arguments
of directives and introspection lead to.
-/
namespace EmbeddedGraphQL

namespace NamedType

def fieldReferences (f : Field) : List String :=
  f.type.baseName :: f.arguments.map (·.type.baseName)

/-- The types that a type refers to, in order. -/
def references (t : NamedType) : List String :=
  match t.kind with
  | .union members => members
  | .object interfaces fields | .interface interfaces fields =>
    interfaces ++ fields.flatMap fieldReferences
  | .input fields _ => fields.map (·.type.baseName)
  | .scalar _ | .enum _ => []

end NamedType

namespace TypeOrder

/-- Adds a type and those it refers to, unless they are there already. Each round adds a type, so
the number of types bounds the depth. -/
def visit (lookup : String → Option NamedType) : Nat → List String → String → List String
  | 0, seen, _ => seen
  | fuel + 1, seen, name =>
    if seen.contains name then seen
    else match lookup name with
      | none => seen
      | some t => t.references.foldl (visit lookup fuel) (seen ++ [name])

/-- The names of all types in order. -/
def names (lookup : String → Option NamedType) (fuel : Nat) (listed further : List String) :
    List String :=
  let own := listed.foldl (fun seen name => visit lookup fuel (seen.erase name) name) listed
  further.foldl (visit lookup fuel) own

end TypeOrder

/-- A schema of some types and directives, with the types in order. Standard types take the place
of listed types with their names. -/
def Schema.assemble (description : Option String) (listed : List NamedType)
    (directives : List DirectiveType) (query mutation subscription : Option String) : Schema :=
  let lookup (name : String) : Option NamedType :=
    (Standard.type? name).or (listed.find? (·.name == name))
  let further := query.toList ++ mutation.toList ++ subscription.toList ++
    (directives.flatMap fun d => d.arguments.map (·.type.baseName)) ++ [Standard.schemaType.name]
  let names := TypeOrder.names lookup (listed.length + Standard.types.length + 1)
    (listed.map (·.name)) further
  { description, types := names.filterMap lookup, directives, query, mutation, subscription }

end EmbeddedGraphQL
