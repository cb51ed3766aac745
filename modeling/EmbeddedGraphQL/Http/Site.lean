import EmbeddedGraphQL.Http.Query
import EmbeddedGraphQL.Service.Session

/-!
The service over HTTP. One address takes the requests of editors, as a query string, as JSON, or as
GraphQL text with everything else in the query string; another tells whether the service is up. What
the body says takes precedence over the query string.
-/
namespace EmbeddedGraphQL

structure HttpRequest where
  method : String
  path : String
  query : String
  headers : List (String × String)
  body : Utf8.Bytes
  deriving DecidableEq, Repr

structure HttpReply where
  status : Nat
  content : Reply
  allowOrigin : Option String

/-- The value of a header, whatever the case of its name. -/
def HttpRequest.header? (r : HttpRequest) (name : String) : Option String :=
  (r.headers.find? fun (n, _) => n.toLower == name).map (·.2)

namespace HttpReply

def json (status : Nat) (content : Json) : HttpReply := ⟨status, .json content, none⟩

def detail (status : Nat) (content : Json) : HttpReply :=
  json status (.obj [("detail", content)])

def badRequest (message : String) (rest : List (String × Json)) : HttpReply :=
  detail 400 (.obj (("error", .str message) :: rest))

/-- The answer to a request that the service failed on. -/
def failure : HttpReply := ⟨500, .text "Internal Server Error", none⟩

def notFound : HttpReply := detail 404 (.str "Not Found")

def wrongMethod : HttpReply := detail 405 (.str "Method Not Allowed")

end HttpReply

namespace Site

def servicePath : String := "/js-graphql-language-service"

def healthPath : String := "/health"

def graphqlType : String := "application/graphql"

mutual

/-- Whether every number and every text of a value has a place in standard JSON. -/
def isStandard : Json → Bool
  | .float x => (Decimal.binary? x).isSome
  | .unpaired _ => false
  | .arr items => allStandard items
  | .obj members => membersStandard members
  | _ => true

def allStandard : List Json → Bool
  | [] => true
  | item :: rest => isStandard item && allStandard rest

def membersStandard : List (String × Json) → Bool
  | [] => true
  | (_, value) :: rest => isStandard value && membersStandard rest

end

/-- Why a request could not be read. -/
inductive Unreadable where
  | encoding
  | notJson
  | notObject
  | refused (fields : List Refused)

def refusedJson (field : Refused) : Json :=
  .obj [("loc", .arr (field.place.toList.map .str)), ("type", .str field.fault.name)]

/-- The answer to a request that cannot be read. Values that are no standard JSON cannot be told
back. -/
def Unreadable.reply : Unreadable → HttpReply
  | encoding => .failure
  | notJson => .badRequest "Request body is not valid JSON" []
  | notObject => .badRequest "Request body must be a JSON object" []
  | refused fields =>
    if fields.all fun field => isStandard field.value then
      .badRequest "Invalid request" [("details", .arr (fields.map refusedJson))]
    else .failure

/-- Sets members of an object in turn. -/
def update (members changes : List (String × Json)) : List (String × Json) :=
  changes.foldl (fun done (key, value) => Json.insert done key value) members

/-- The members that query string and body give together. -/
def members (r : HttpRequest) : Except Unreadable (List (String × Json)) :=
  let query := Query.members r.query
  if ((r.header? "content-type").getD "").startsWith graphqlType then
    match Utf8.decode? r.body with
    | some text => .ok (Json.insert query "buffer" (.str (String.ofList text)))
    | none => .error .encoding
  else if r.body.isEmpty then .ok query
  else match Json.ofBytes? r.body with
    | some (.obj body) => .ok (update query body)
    | some _ => .error .notObject
    | none => .error .notJson

/-- A flag that is written as a text is set by one word only. -/
def withPlainFlag (members : List (String × Json)) : List (String × Json) :=
  match members.lookup "relay" with
  | some (.str word) => Json.insert members "relay" (.bool (word == "true"))
  | some (.unpaired _) => Json.insert members "relay" (.bool false)
  | _ => members

/-- The editor's request in a request to the service. -/
def request (r : HttpRequest) : Except Unreadable Request := do
  (Request.ofMembers (withPlainFlag (← members r))).mapError .refused

def serve (around : Surroundings) (session : Session) (r : HttpRequest) : Session × HttpReply :=
  match request r with
  | .error unreadable => (session, unreadable.reply)
  | .ok request =>
    let turn := session.handle around request
    (turn.session, match turn.result with
      | .ok reply => ⟨200, reply, none⟩
      | .error _ => .failure)

def health (p : Project) : HttpReply :=
  .json 200 (.obj [("status", .str "ok"), ("schemaVersion", .int p.store.current.version),
    ("schemaUrl", .str p.store.current.url), ("projectDir", Json.ofOption p.directory)])

/-- The path that is asked for; separators at its end do not count. -/
def pathOf (r : HttpRequest) : String :=
  let bytes := Query.percentDecode (Utf8.encode r.path.toList)
  String.ofList ((Utf8.decodeLossy bytes).reverse.dropWhile (· == '/')).reverse

def route (around : Surroundings) (session : Session) (r : HttpRequest) : Session × HttpReply :=
  let path := pathOf r
  if path == servicePath then
    if r.method == "GET" || r.method == "POST" then serve around session r
    else (session, .wrongMethod)
  else if path == healthPath then
    (session, if r.method == "GET" then health session.project else .wrongMethod)
  else (session, .notFound)

/-- The origin that a page may have to read an answer, under a list of allowed ones. A request with
cookies is never answered for every origin at once. -/
def allowOrigin? (allowed : List String) (r : HttpRequest) : Option String :=
  (r.header? "origin").bind fun origin =>
    if allowed.contains "*" then
      some (if (r.header? "cookie").isSome then origin else "*")
    else if allowed.contains origin then some origin
    else none

/-- Answers a request. Only failures are sent without an allowed origin. -/
def handle (around : Surroundings) (allowed : List String) (session : Session) (r : HttpRequest) :
    Session × HttpReply :=
  let (session, reply) := route around session r
  (session, if reply.status = 500 then reply
    else { reply with allowOrigin := allowOrigin? allowed r })

end Site
end EmbeddedGraphQL
