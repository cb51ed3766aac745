import EmbeddedGraphQL.Validation.Visit
import EmbeddedGraphQL.Validation.Violation

/-!
Rules for documents. A rule reads the parts of a document and gives its findings with the place in
the walk at which each is made, so that the findings of several rules can be brought in order.
-/
namespace EmbeddedGraphQL

namespace Document

/-- The fragment with a name; of several the last. -/
def fragment? (d : Document) (name : String) : Option Fragment :=
  d.fragments.reverse.find? (·.name.value == name)

end Document

/-- A fragment that is spread somewhere. -/
structure Spread where
  name : Name
  span : Span
  deriving DecidableEq, Repr, Inhabited

namespace Selection

/-- The spreads of a selection set, and those in the sets inside it. -/
structure Spreads where
  here : List Spread
  inside : List Spread

def Spreads.all (s : Spreads) : List Spread := s.here ++ s.inside

/-- The spreads of a selection set come first; of the sets inside it the last comes first. -/
def spreads : List Selection → Spreads
  | [] => ⟨[], []⟩
  | .spread name _ span :: rest =>
    let after := spreads rest
    ⟨⟨name, span⟩ :: after.here, after.inside⟩
  | .field _ _ _ _ _ selections _ :: rest =>
    let after := spreads rest
    ⟨after.here, after.inside ++ (spreads selections).all⟩
  | .inline _ _ _ selections _ :: rest =>
    let after := spreads rest
    ⟨after.here, after.inside ++ (spreads selections).all⟩

end Selection

namespace Validation

/-- What rules are given. -/
structure Setting where
  schema : Schema
  document : Document
  parts : List (Nat × Event)

def Setting.of (s : Schema) (d : Document) : Setting :=
  ⟨s, d, (events s d).zipIdx.map fun (event, time) => (time, event)⟩

abbrev Rule := Setting → List (Nat × Finding)

/-- A rule that looks at each part alone. -/
def Rule.each (check : Setting → Event → List Finding) : Rule := fun x =>
  x.parts.flatMap fun (time, event) => (check x event).map (time, ·)

/-- A rule that looks at each part and at those before it. -/
def Rule.remembering {σ : Type} (start : σ) (check : σ → Event → σ × List Finding) : Rule :=
  fun x =>
    (x.parts.foldl (fun (state, found) (time, event) =>
      let (state, findings) := check state event
      (state, found ++ findings.map (time, ·))) (start, [])).2

/-- Values with their positions, grouped by a key in the order of first occurrence. -/
def groupBy {α : Type} (key : α → String) (items : List α) : List (String × List α) :=
  items.foldl (fun groups item =>
    if groups.any (·.1 == key item) then
      groups.map fun group => if group.1 == key item then (group.1, group.2 ++ [item]) else group
    else groups ++ [(key item, [item])]) []

/-- The names that several items share. -/
def repeated {α : Type} (noun : String) (key : α → String) (offset : α → Nat) (items : List α) :
    List Finding :=
  (groupBy key items).filterMap fun (name, group) =>
    if 1 < group.length then some ⟨.repeatedName noun name, group.map offset⟩ else none

/-- A name that was seen before, reported together with its first use. -/
def seenBefore (noun : String) (known : List Name) (name : Name) : List Name × List Finding :=
  match known.find? (·.value == name.value) with
  | some first => (known, [⟨.repeatedName noun name.value, [first.span.start, name.span.start]⟩])
  | none => (known ++ [name], [])

/-! Fragments that an operation reaches -/

/-- The fragments that selections reach, given those still to be looked through. -/
def reachedFrom (d : Document) : Nat → List (List Selection) → List String → List Fragment →
    List Fragment
  | 0, _, _, found => found
  | _, [], _, found => found
  | fuel + 1, set :: waiting, seen, found =>
    let (waiting, seen, found) := (Selection.spreads set).all.foldl
      (fun (waiting, seen, found) spread =>
        if seen.contains spread.name.value then (waiting, seen, found)
        else match d.fragment? spread.name.value with
          | some f => (f.selections.items :: waiting, spread.name.value :: seen, found ++ [f])
          | none => (waiting, spread.name.value :: seen, found))
      (waiting, seen, found)
    reachedFrom d fuel waiting seen found

/-- The fragments that an operation uses, directly or through others. -/
def reachedFragments (d : Document) (o : Operation) : List Fragment :=
  reachedFrom d (d.fragments.length + 2) [o.selections.items] [] []

/-- A use of a variable, with the types expected there. -/
structure VariableUse where
  name : Name
  span : Span
  context : TypeContext
  deriving Inhabited

def variableUses (found : List Event) : List VariableUse :=
  found.filterMap fun
    | .variable c name span => some ⟨name, span, c⟩
    | _ => none

/-- The variables that an operation uses, in its own selections and in fragments. -/
def usedVariables (x : Setting) (o : Operation) : List VariableUse :=
  variableUses (ofOperation x.schema o) ++
    (reachedFragments x.document o).flatMap fun f => variableUses (ofFragment x.schema f)

end Validation
end EmbeddedGraphQL
