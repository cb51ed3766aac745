import EmbeddedGraphQL.Json.Basic
import EmbeddedGraphQL.Text.Upper

/-!
The schema section of a project's configuration. It names a file or an address with introspection
JSON. Values are taken as they are written, since most of them matter only once they are used.
-/
namespace EmbeddedGraphQL

/-- A configuration of a wrong shape. -/
inductive ConfigFault where
  | noMembers
  | notPairs
  | notListed
  deriving DecidableEq, Repr

/-- An address to ask for introspection JSON. -/
structure RemoteSource where
  url : Json
  method : String
  post : Bool
  headers : List (String × Json)

structure ProjectConfig where
  file : Json
  remote : Option RemoteSource

namespace ProjectConfig

abbrev Outcome := Except ConfigFault

def fileName : String := "graphql.config.json"

/-- A member of an object, null if there is none. -/
def member (j : Json) (key : String) : Outcome Json :=
  match j with
  | .obj members => .ok ((members.lookup key).getD .null)
  | _ => .error .noMembers

/-- A member that is an object, where nothing given counts as the empty one. -/
def part (j : Json) (key : String) : Outcome Json := do
  let value ← member j key
  return if value.isGiven then value else .obj []

/-- A key and a value, as an array of two items or in any other way that shows two parts. -/
def headerPair : Json → Outcome (String × Json)
  | .arr [.str key, value] => .ok (key, value)
  | .arr [.unpaired key, value] => .ok (CodePoint.spelled key, value)
  | .arr [_, _] => .error .notListed
  | .arr _ => .error .notPairs
  | .str s => match s.toList with
    | [a, b] => .ok (a.toString, .str b.toString)
    | _ => .error .notPairs
  | .unpaired [a, b] => .ok (CodePoint.spelled [a], .ofPoints [b])
  | .unpaired _ => .error .notPairs
  | .obj [(a, _), (b, _)] => .ok (a, .str b)
  | .obj _ => .error .notPairs
  | _ => .error .notListed

def headers : Json → Outcome (List (String × Json))
  | .obj members => .ok members
  | .arr items => (items.mapM headerPair).map Json.ofMembers
  | .str _ | .unpaired _ => .error .notPairs
  | _ => .error .notListed

def remoteSource (request url : Json) : Outcome RemoteSource := do
  let options ← part request "options"
  let method ← member request "method"
  let method ← match method with
    | .str s => .ok (if s == "" then "GET" else s)
    | .unpaired points => .ok (CodePoint.spelled points)
    | j => if j.isGiven then .error .noMembers else .ok "GET"
  let post ← member request "postIntrospectionQuery"
  let headers ← headers (← part options "headers")
  return { url, method := Text.upper method, post := post.isGiven, headers }

/-- Reads the schema section; an address that is not given makes no remote source. -/
def ofJson (data : Json) : Outcome ProjectConfig := do
  let schema ← part data "schema"
  let request ← part schema "request"
  let url ← member request "url"
  let remote ← if url.isGiven then (remoteSource request url).map some else .ok none
  return { file := ← member schema "file", remote }

end ProjectConfig
end EmbeddedGraphQL
