import EmbeddedGraphQL.Text.CodePoint

/-!
JSON values. Whole numbers of any size are kept apart from numbers with a fraction or an exponent,
and texts from those that are not well formed. The members of an object keep their order; no key
occurs twice.
-/
namespace EmbeddedGraphQL

inductive Json where
  | null
  | bool (b : Bool)
  | int (n : Int)
  | float (x : Float)
  | str (s : String)
  | unpaired (points : List CodePoint)
  | arr (items : List Json)
  | obj (members : List (String × Json))
  deriving Inhabited

namespace Json

/-- Sets a member: an existing key keeps its place, a new one goes to the end. -/
def insert (members : List (String × Json)) (key : String) (value : Json) :
    List (String × Json) :=
  if members.any (·.1 == key) then
    members.map fun member => if member.1 == key then (key, value) else member
  else members ++ [(key, value)]

/-- The members that result from setting each of a list in turn. -/
def ofMembers (members : List (String × Json)) : List (String × Json) :=
  members.foldl (fun done member => insert done member.1 member.2) []

/-- The member of an object under a key; other values have no members. -/
def get? : Json → String → Option Json
  | .obj members, key => members.lookup key
  | _, _ => none

/-- Null, false, zero and empty values count as not given. -/
def isGiven : Json → Bool
  | .null => false
  | .bool b => b
  | .int n => n != 0
  | .float x => !(x == 0.0)
  | .str s => s != ""
  | .unpaired points => !points.isEmpty
  | .arr items => !items.isEmpty
  | .obj members => !members.isEmpty

/-- A text, well formed or not. -/
def ofPoints (points : List CodePoint) : Json :=
  match CodePoint.text? points with
  | some text => .str text
  | none => .unpaired points

/-- The code points of a text, well formed or not. -/
def points? : Json → Option (List CodePoint)
  | .str s => some (s.toList.map .char)
  | .unpaired points => some points
  | _ => none

/-- No text is taken for another one. -/
theorem points?_ofPoints (points : List CodePoint) : (ofPoints points).points? = some points := by
  unfold ofPoints
  split
  next text htext => exact congrArg some (CodePoint.map_char_of_text? htext)
  next => rfl

def str? : Json → Option String
  | .str s => some s
  | _ => none

def arr? : Json → Option (List Json)
  | .arr items => some items
  | _ => none

/-- An optional text as JSON, with null for its absence. -/
def ofOption : Option String → Json
  | some s => .str s
  | none => .null

end Json
end EmbeddedGraphQL
