import EmbeddedGraphQL.Schema.Builtin

/-!
The schema in use. Each change makes a new snapshot with the next version, so that an editor can
tell by the version whether anything changed; falling back to the builtin schema when it is in use
already changes nothing.
-/
namespace EmbeddedGraphQL

/-- Which schema is active: the builtin one of a store, or one that was loaded. -/
inductive ActiveSchema where
  | builtin
  | loaded (s : Schema)
  deriving Inhabited

/-- An active schema with its version and the place it came from. -/
structure Snapshot where
  active : ActiveSchema
  version : Nat
  url : String
  deriving Inhabited

def Snapshot.isBuiltin (s : Snapshot) : Bool :=
  match s.active with
  | .builtin => true
  | .loaded _ => false

structure Store where
  builtin : Schema
  current : Snapshot
  deriving Inhabited

namespace Store

/-- A store with a builtin schema, which is active. -/
def ofBuiltin (s : Schema) : Store := ⟨s, ⟨.builtin, 0, ""⟩⟩

def initial : Store := ofBuiltin Schema.builtin

/-- The schema of a snapshot that was taken from the store. -/
def schemaOf (store : Store) (s : Snapshot) : Schema :=
  match s.active with
  | .builtin => store.builtin
  | .loaded s => s

def schema (store : Store) : Schema := store.schemaOf store.current

/-- Activates a schema under the next version. -/
def replace (store : Store) (active : ActiveSchema) (url : String) : Store :=
  { store with current := ⟨active, store.current.version + 1, url⟩ }

/-- Falls back to the builtin schema. -/
def reset (store : Store) : Store :=
  if store.current.isBuiltin && store.current.url == "" then store
  else store.replace .builtin ""

end Store
end EmbeddedGraphQL
