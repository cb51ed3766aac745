import EmbeddedGraphQL.Validation.Rule

/-!
Rules about fragments: their names, their use, where they can be spread, and cycles.
-/
namespace EmbeddedGraphQL.Validation

def fragmentNames : Rule := .remembering [] fun known event =>
  match event with
  | .definition (.fragment f) => seenBefore "fragment" known f.name
  | _ => (known, [])

def knownFragments : Rule := .each fun x event =>
  match event with
  | .spread _ name _ _ =>
    if (x.document.fragment? name.value).isNone then
      [⟨.unknownFragment name.value, [name.span.start]⟩]
    else []
  | _ => []

/-- Every fragment must be reached by an operation. -/
def usedFragments : Rule := .each fun x event =>
  match event with
  | .closeDocument =>
    let used := x.document.operations.flatMap fun o =>
      (reachedFragments x.document o).map (·.name.value)
    (x.document.fragments.filter fun f => !used.contains f.name.value).map fun f =>
      ⟨.unusedFragment f.name.value, [f.span.start]⟩
  | _ => []

/-- Whether an object can be of both types. -/
def overlap (s : Schema) (a b : NamedType) : Bool :=
  if a.name == b.name then true
  else if a.isAbstract then
    if b.isAbstract then (s.possibleTypes a).any (Schema.isSubType b)
    else Schema.isSubType a b
  else b.isAbstract && Schema.isSubType b a

/-- What is wrong with a fragment on a type at a place. -/
def spreadFinding (s : Schema) (fragment : Option String) (parent type : Option NamedType)
    (offset : Nat) : List Finding :=
  match parent, type with
  | some parent, some type =>
    if type.isComposite && !overlap s type parent then
      [⟨.impossibleSpread fragment parent.name type.name, [offset]⟩]
    else []
  | _, _ => []

/-- A fragment can be spread only where objects of its type may come. -/
def possibleSpreads : Rule := .each fun x event =>
  match event with
  | .inline c _ _ span =>
    spreadFinding x.schema none c.parent (c.type.bind fun t => x.schema.type? t.baseName) span.start
  | .spread c name _ span =>
    let type := (x.document.fragment? name.value).bind fun f => x.schema.type? f.type.value
    spreadFinding x.schema (some name.value) c.parent type span.start
  | _ => []

/-! Cycles -/

/-- The search for cycles: the fragments that were entered, the spreads on the way from the first
fragment, and the fragments on that way with the number of spreads before them. -/
structure CycleSearch where
  visited : List String
  way : List Spread
  places : List (String × Nat)
  found : List Finding

def cycleFinding (name : String) (cycle : List Spread) : Finding :=
  ⟨.fragmentCycle name (cycle.dropLast.map (·.name.value)), cycle.map (·.span.start)⟩

/-- Follows the spreads of a fragment. No fragment is entered twice, so the number of fragments
bounds the depth. -/
def followSpreads (d : Document) : Nat → Fragment → CycleSearch → CycleSearch
  | 0, _, search => search
  | fuel + 1, f, search =>
    if search.visited.contains f.name.value then search
    else
      let search := { search with visited := f.name.value :: search.visited }
      let spreads := (Selection.spreads f.selections.items).all
      let entered :=
        { search with places := (f.name.value, search.way.length) :: search.places }
      let after := spreads.foldl (fun search spread =>
        let way := search.way ++ [spread]
        match search.places.lookup spread.name.value with
        | some place =>
          { search with found := search.found ++ [cycleFinding spread.name.value (way.drop place)] }
        | none =>
          match d.fragment? spread.name.value with
          | some inner =>
            let deeper := followSpreads d fuel inner { search with way }
            { deeper with way := search.way }
          | none => search) entered
      { after with places := search.places }

/-- No fragment may contain itself. -/
def noCycles : Rule := fun x =>
  Rule.remembering [] (fun visited event =>
    match event with
    | .definition (.fragment f) =>
      let search := followSpreads x.document (x.document.fragments.length + 2) f
        ⟨visited, [], [], []⟩
      (search.visited, search.found)
    | _ => (visited, [])) x

end EmbeddedGraphQL.Validation
