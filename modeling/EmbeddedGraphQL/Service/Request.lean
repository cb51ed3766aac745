import EmbeddedGraphQL.Service.Coercion
import EmbeddedGraphQL.Embedding.Environment
import EmbeddedGraphQL.Text.Position

/-!
Requests of an editor. Every field has a default, fields that are not known are ignored, and all
faults of a request are told together in the order of the fields.
-/
namespace EmbeddedGraphQL

structure Request where
  command : String
  env : Option String
  relay : Bool
  buffer : String
  line : Int
  ch : Int
  type : Option String
  field : Option String
  projectDir : Option String
  deriving DecidableEq, Repr

/-- A value that was refused, with the name it was found under; the request itself has none. -/
structure Refused where
  place : Option String
  value : Json
  fault : ValueFault

namespace Request

/-- The convention that the request itself asks for. -/
def environment (r : Request) : Environment := .ofRequest r.env r.relay

/-- The convention of the request, where one that names none gets a default. -/
def environmentOr (r : Request) (default : Environment) : Environment :=
  if r.env.isNone && !r.relay then default else r.environment

def cursor (r : Request) : Position := ⟨r.line, r.ch⟩

/-- The names of the project directory, the preferred one first. -/
def projectDirNames : List String := ["projectDir", "project_dir"]

/-- Reads the field with one of some names, the first that the members have. -/
def read {α : Type} (members : List (String × Json)) (names : List String) (default : α)
    (coerce : Json → Except ValueFault α) : Except Refused α :=
  match names.findSome? fun name => (members.lookup name).map fun value => (name, value) with
  | none => .ok default
  | some (name, value) => (coerce value).mapError fun fault => ⟨some name, value, fault⟩

private def refusal {α : Type} : Except Refused α → List Refused
  | .ok _ => []
  | .error refused => [refused]

/-- The request that the members of an object make. -/
def ofMembers (members : List (String × Json)) : Except (List Refused) Request :=
  let command := read members ["command"] "getTokens" Coercion.text
  let env := read members ["env"] none Coercion.optionalText
  let relay := read members ["relay"] false Coercion.flag
  let buffer := read members ["buffer"] "" Coercion.text
  let line := read members ["line"] 0 Coercion.whole
  let ch := read members ["ch"] 0 Coercion.whole
  let type := read members ["type"] none Coercion.optionalText
  let field := read members ["field"] none Coercion.optionalText
  let projectDir := read members projectDirNames none Coercion.optionalText
  match command, env, relay, buffer, line, ch, type, field, projectDir with
  | .ok command, .ok env, .ok relay, .ok buffer, .ok line, .ok ch, .ok type, .ok field,
      .ok projectDir =>
    .ok { command, env, relay, buffer, line, ch, type, field, projectDir }
  | command, env, relay, buffer, line, ch, type, field, projectDir =>
    .error (refusal command ++ refusal env ++ refusal relay ++ refusal buffer ++ refusal line ++
      refusal ch ++ refusal type ++ refusal field ++ refusal projectDir)

/-- The request that a value makes. -/
def ofJson : Json → Except (List Refused) Request
  | .obj members => ofMembers members
  | value => .error [⟨none, value, .notObject⟩]

end Request
end EmbeddedGraphQL
