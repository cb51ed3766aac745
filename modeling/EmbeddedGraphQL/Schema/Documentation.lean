import EmbeddedGraphQL.Schema.Basic

/-!
What a schema says about its types and fields. The usual names of the root types stand for the
roots also where these are called differently.
-/
namespace EmbeddedGraphQL

/-- A field as it is documented; only fields of objects and interfaces have arguments. -/
structure FieldDoc where
  name : String
  arguments : List InputValue
  type : TypeExpr
  description : Option String
  deriving Inhabited

structure TypeDoc where
  type : String
  description : Option String
  interfaces : List String
  implementations : List String
  fields : List FieldDoc
  deriving Inhabited

namespace FieldDoc

def ofField (f : Field) : FieldDoc := ⟨f.name, f.arguments, f.type, f.description⟩

def ofInput (i : InputValue) : FieldDoc := ⟨i.name, [], i.type, i.description⟩

end FieldDoc

namespace Schema

/-- The type that a name stands for. -/
def named? (s : Schema) (name : String) : Option NamedType :=
  if name == "" then none
  else match s.type? name with
    | some t => some t
    | none =>
      match name with
      | "Query" => s.root? .query
      | "Mutation" => s.root? .mutation
      | "Subscription" => s.root? .subscription
      | _ => none

def fieldDocs (t : NamedType) : List FieldDoc :=
  t.fields.map .ofField ++ t.inputFields.map .ofInput

def typeDoc? (s : Schema) (name : String) : Option TypeDoc :=
  (s.named? name).map fun t => {
    type := t.name, description := t.description, interfaces := t.interfaces
    implementations := (s.possibleTypes t).map (·.name), fields := fieldDocs t }

def fieldDoc? (s : Schema) (type field : String) : Option FieldDoc :=
  (s.named? type).bind fun t => (fieldDocs t).find? (·.name == field)

end Schema
end EmbeddedGraphQL
