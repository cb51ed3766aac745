import EmbeddedGraphQL.Document.Ast
import EmbeddedGraphQL.Highlight.Token

/-!
The names of a document, each with the kind of node that it names and the style that this gives it.
Names that no node is called by, such as aliases and directive locations, are left out.
-/
namespace EmbeddedGraphQL

structure NameUse where
  start : Nat
  kind : String
  style : Style
  deriving DecidableEq, Repr

namespace NameUse

def of (kind : String) (style : Style) (n : Name) : NameUse := ⟨n.span.start, kind, style⟩

def ofType (n : Name) : NameUse := of "NamedType" .atom n

mutual

def ofValue : Value → List NameUse
  | .variable n _ => [of "Variable" .definition n]
  | .list items _ => ofValues items
  | .object fields _ => ofFields fields
  | _ => []

def ofValues : List Value → List NameUse
  | [] => []
  | v :: rest => ofValue v ++ ofValues rest

def ofFields : List (Name × Value) → List NameUse
  | [] => []
  | (n, v) :: rest => of "ObjectField" .definition n :: (ofValue v ++ ofFields rest)

end

def ofArgument (a : Argument) : List NameUse := of "Argument" .definition a.name :: ofValue a.value

def ofDirective (d : Directive) : List NameUse :=
  of "Directive" .definition d.name :: d.arguments.flatMap ofArgument

def ofDirectives (ds : List Directive) : List NameUse := ds.flatMap ofDirective

mutual

def ofSelection : Selection → List NameUse
  | .field _ n arguments ds _ selections _ =>
    of "Field" .definition n ::
      (arguments.flatMap ofArgument ++ ofDirectives ds ++ ofSelections selections)
  | .spread n ds _ => of "FragmentSpread" .definition n :: ofDirectives ds
  | .inline type ds _ selections _ =>
    type.toList.map ofType ++ ofDirectives ds ++ ofSelections selections

def ofSelections : List Selection → List NameUse
  | [] => []
  | s :: rest => ofSelection s ++ ofSelections rest

end

def ofTypeRef (t : TypeRef) : NameUse := ofType t.baseName

def ofVariable (v : VariableDefinition) : List NameUse :=
  of "Variable" .definition v.name :: ofTypeRef v.type ::
    (v.default.toList.flatMap ofValue ++ ofDirectives v.directives)

/-- An input value is an attribute among the arguments of a field and a property elsewhere. -/
def ofInputValue (style : Style) (i : InputValueDefinition) : List NameUse :=
  of "InputValueDefinition" style i.name :: ofTypeRef i.type ::
    (i.default.toList.flatMap ofValue ++ ofDirectives i.directives)

def ofField (f : FieldDefinition) : List NameUse :=
  of "FieldDefinition" .property f.name ::
    (f.arguments.flatMap (ofInputValue .attribute) ++ ofTypeRef f.type :: ofDirectives f.directives)

def ofEnumValue (e : EnumValueDefinition) : List NameUse :=
  of "EnumValueDefinition" .definition e.name :: ofDirectives e.directives

/-- The first word of the kind of a definition, and the names in its body. -/
def ofBody : TypeBody → String × List NameUse
  | .scalar => ("ScalarType", [])
  | .object interfaces fields =>
    ("ObjectType", interfaces.map ofType ++ fields.flatMap ofField)
  | .interface interfaces fields =>
    ("InterfaceType", interfaces.map ofType ++ fields.flatMap ofField)
  | .union types => ("UnionType", types.map ofType)
  | .enum values => ("EnumType", values.flatMap ofEnumValue)
  | .input fields => ("InputObjectType", fields.flatMap (ofInputValue .property))

def ofDefinition : Definition → List NameUse
  | .operation o =>
    o.name.toList.map (of "OperationDefinition" .definition) ++
      o.variableDefinitions.flatMap ofVariable ++ ofDirectives o.directives ++
      ofSelections o.selections.items
  | .fragment f =>
    of "FragmentDefinition" .definition f.name :: ofType f.type ::
      (ofDirectives f.directives ++ ofSelections f.selections.items)
  | .schema s => ofDirectives s.directives ++ s.roots.map (ofType ·.type)
  | .type t =>
    let (word, uses) := ofBody t.body
    of (word ++ if t.isExtension then "Extension" else "Definition") .definition t.name ::
      (ofDirectives t.directives ++ uses)
  | .directive d =>
    of "DirectiveDefinition" .definition d.name :: d.arguments.flatMap (ofInputValue .property)

/-- The names of a document. -/
def ofDocument (d : Document) : List NameUse := d.definitions.flatMap ofDefinition

end NameUse
end EmbeddedGraphQL
