import EmbeddedGraphQL.Schema.Order

/-!
The schema in use until a project brings its own: a small one with todo items, ships and factions,
with connections, edges and a common interface of nodes.
-/
namespace EmbeddedGraphQL.Schema.Builtin

private def optional (name : String) : TypeExpr := .named name

private def demanded (name : String) : TypeExpr := .nonNull (.named name)

private def listOf (name : String) : TypeExpr := .list (.named name)

private def bare (name : String) (type : TypeExpr) : Field := ⟨name, none, [], type, none⟩

private def about (name description : String) (type : TypeExpr) : Field :=
  ⟨name, some description, [], type, none⟩

private def input (name : String) (type : TypeExpr) : InputValue := ⟨name, none, type, none, none⟩

private def object (name : String) (description : Option String) (interfaces : List String)
    (fields : List Field) : NamedType :=
  ⟨name, description, .object interfaces fields⟩

private def nodeId : Field := about "id" "The ID of an object" (demanded "ID")

/-- Arguments that select a page of a connection. -/
private def paging : List InputValue :=
  [input "after" (optional "String"), input "first" (optional "Int"),
    input "before" (optional "String"), input "last" (optional "Int")]

private def connection (name edge : String) : NamedType :=
  object name (some "A connection to a list of items.") []
    [about "pageInfo" "Information to aid in pagination." (demanded "PageInfo"),
      about "edges" "A list of edges." (listOf edge)]

private def edge (name node : String) : NamedType :=
  object name (some "An edge in a connection.") []
    [about "node" "The item at the end of the edge" (optional node),
      about "cursor" "A cursor for use in pagination" (demanded "String")]

private def anyStatus : InputValue :=
  ⟨"status", none, optional "TodoStatus", some (.enum "any" ⟨0, 0⟩), none⟩

def types : List NamedType := [
  ⟨"Node", some "An object with an ID",
    .interface [] [about "id" "The id of the object." (demanded "ID")]⟩,
  object "PageInfo" (some "Information about pagination in a connection.") []
    [about "hasNextPage" "When paginating forwards, are there more items?" (demanded "Boolean"),
      about "hasPreviousPage" "When paginating backwards, are there more items?"
        (demanded "Boolean"),
      about "startCursor" "When paginating backwards, the cursor to continue." (optional "String"),
      about "endCursor" "When paginating forwards, the cursor to continue." (optional "String")],
  object "User" (some "A user of the Todo app") ["Node"]
    [nodeId, bare "name" (optional "String"),
      ⟨"todos", none, anyStatus :: paging, optional "TodoConnection", none⟩,
      bare "totalCount" (optional "Int"), bare "completedCount" (optional "Int")],
  ⟨"TodoStatus", none,
    .enum [⟨"any", none, none⟩, ⟨"active", none, none⟩, ⟨"completed", none, none⟩]⟩,
  object "Todo" (some "A single todo item") ["Node"]
    [nodeId, bare "text" (optional "String"), bare "complete" (optional "Boolean")],
  connection "TodoConnection" "TodoEdge",
  edge "TodoEdge" "Todo",
  object "Ship" (some "A ship in the Star Wars saga") ["Node"]
    [nodeId, about "name" "The name of the ship." (optional "String")],
  object "Faction" (some "A faction in the Star Wars saga") ["Node"]
    [nodeId, about "name" "The name of the faction." (optional "String"),
      ⟨"ships", some "The ships used by the faction.", paging, optional "ShipConnection", none⟩],
  connection "ShipConnection" "ShipEdge",
  edge "ShipEdge" "Ship",
  object "Query" none []
    [bare "viewer" (optional "User"),
      ⟨"node", some "Fetches an object given its ID",
        [⟨"id", some "The ID of an object", demanded "ID", none, none⟩], optional "Node", none⟩,
      bare "rebels" (optional "Faction"), bare "empire" (optional "Faction")],
  ⟨"AddTodoInput", none,
    .input [input "text" (demanded "String"), input "clientMutationId" (optional "String")] false⟩,
  object "AddTodoPayload" none []
    [bare "todoEdge" (optional "TodoEdge"), bare "viewer" (optional "User"),
      bare "clientMutationId" (optional "String")],
  object "Mutation" none []
    [⟨"addTodo", none, [input "input" (demanded "AddTodoInput")], optional "AddTodoPayload",
      none⟩]]

end Builtin

/-- The builtin schema. -/
def builtin : Schema :=
  assemble none Builtin.types Standard.directives (some "Query") (some "Mutation") none

end EmbeddedGraphQL.Schema
