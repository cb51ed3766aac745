import EmbeddedGraphQL.Text.Position

/-!
Completions as they are offered, with the range of the word that they replace.
-/
namespace EmbeddedGraphQL

/-- A completion that may be typed at a place. -/
structure Hint where
  text : String
  type : Option String
  description : Option String
  relay : Bool
  deriving DecidableEq, Repr

/-- Completions and the range they replace. -/
structure HintList where
  hints : List Hint
  start : Option Position
  stop : Option Position
  deriving DecidableEq, Repr

end EmbeddedGraphQL
