import EmbeddedGraphQL.Document.Ast
import EmbeddedGraphQL.Highlight.Grammar
import Mathlib

/-!
Opening braces of selection sets in a document, each with what the selection sets belong to that are
open behind it.
-/
namespace EmbeddedGraphQL

mutual

/-- Whether an object occurs in a value. -/
def Value.hasObject : Value → Bool
  | .object _ _ => true
  | .list items _ => anyObject items
  | _ => false

def anyObject : List Value → Bool
  | [] => false
  | v :: rest => v.hasObject || anyObject rest

end

def Directive.hasObject (d : Directive) : Bool := d.arguments.any (·.value.hasObject)

/-- The opening brace of a selection set, with what the sets that are open behind it belong to,
outermost first. It is clear if no inline fragment among these has an object in its directives. -/
structure Opening where
  start : Nat
  owners : List Owner
  clear : Bool
  deriving DecidableEq, Repr

/-- What the selection set of an inline fragment belongs to. -/
def inlineOwner : Option Name → Owner
  | none => .inline
  | some name => .type (some name.value)

mutual

/-- The opening braces in a selection, given what the sets around it belong to. -/
def Selection.openings (owners : List Owner) (clear : Bool) : Selection → List Opening
  | .field _ _ _ _ none _ _ => []
  | .spread _ _ _ => []
  | .field _ name _ _ (some braces) selections _ =>
    let owners := owners ++ [.field (some name.value)]
    ⟨braces.start, owners, clear⟩ :: openingsAmong owners clear selections
  | .inline type directives braces selections _ =>
    let owners := owners ++ [inlineOwner type]
    let clear := clear && !directives.any Directive.hasObject
    ⟨braces.start, owners, clear⟩ :: openingsAmong owners clear selections

def openingsAmong (owners : List Owner) (clear : Bool) : List Selection → List Opening
  | [] => []
  | first :: rest => first.openings owners clear ++ openingsAmong owners clear rest

end

def SelectionSet.openings (owner : Owner) (set : SelectionSet) : List Opening :=
  ⟨set.span.start, [owner], true⟩ :: openingsAmong [owner] true set.items

/-- The keyword of a kind of operation. -/
def OperationKind.keyword : OperationKind → DefinitionKeyword
  | query => .query
  | mutation => .mutation
  | subscription => .subscription

def Definition.openings : Definition → List Opening
  | .operation o => o.selections.openings (.root o.kind.keyword)
  | .fragment f => f.selections.openings (.type (some f.type.value))
  | _ => []

def Definition.isExecutable : Definition → Bool
  | .operation _ | .fragment _ => true
  | _ => false

/-- The opening braces of all selection sets of a document. -/
def Document.openings (d : Document) : List Opening := d.definitions.flatMap Definition.openings

/-- The frames of selection sets that belong to the given owners, innermost first. -/
def framesOf (owners : List Owner) : List Frame :=
  (owners.map fun owner => ⟨.selectionSet, owner, none⟩).reverse

theorem framesOf_append (owners : List Owner) (owner : Owner) :
    framesOf (owners ++ [owner]) = ⟨.selectionSet, owner, none⟩ :: framesOf owners := by
  simp [framesOf]

/-- Whether a document holds operations and fragments only. -/
def Document.isExecutable (d : Document) : Bool := d.definitions.all Definition.isExecutable

end EmbeddedGraphQL
