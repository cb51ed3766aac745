/-! Names that are reached from others by following references. -/
namespace EmbeddedGraphQL

/-- The names reached in a number of steps. -/
def reachable (next : String → List String) : Nat → List String → List String
  | 0, names => names
  | steps + 1, names => reachable next steps (names ++ names.flatMap next).eraseDups

/-- Whether a name leads back to itself within a number of steps. -/
def isCyclic (next : String → List String) (steps : Nat) (name : String) : Bool :=
  (reachable next steps (next name)).contains name

end EmbeddedGraphQL
