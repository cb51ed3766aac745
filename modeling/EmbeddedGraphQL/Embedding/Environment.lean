/-!
Embedding conventions: how the host language marks GraphQL text and what may be left out of it.
-/
namespace EmbeddedGraphQL

inductive Environment where
  | relay
  | apollo
  | lokka
  | graphqlTemplate
  | plain
  | other (name : String)
  deriving DecidableEq, Repr, Inhabited

namespace Environment

/-- The conventions that have a rule or a place in a list of choices. -/
def known : List Environment := [relay, apollo, lokka, graphqlTemplate, plain]

def name : Environment → String
  | relay => "relay"
  | apollo => "apollo"
  | lokka => "lokka"
  | graphqlTemplate => "graphqlTemplate"
  | plain => "plain"
  | other name => name

/-- A known convention by its name. -/
def known? (name : String) : Option Environment :=
  known.find? fun environment => environment.name == name

/-- Names without a convention of their own stand for one that has no special rules. -/
def ofName (name : String) : Environment := (known? name).getD (other name)

/-- The convention that a request asks for: a known name first, then the older flag, then plain. -/
def ofRequest (name : Option String) (relayFlag : Bool) : Environment :=
  match name.bind known? with
  | some environment => environment
  | none => if relayFlag then relay else plain

end Environment
end EmbeddedGraphQL
