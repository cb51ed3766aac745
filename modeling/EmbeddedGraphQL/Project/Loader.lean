import EmbeddedGraphQL.Project.Config
import EmbeddedGraphQL.Project.FileTree
import EmbeddedGraphQL.Json.Encoded
import EmbeddedGraphQL.Schema.OfIntrospection
import EmbeddedGraphQL.Schema.Store

/-!
The schema of a project directory. It is loaded again whenever the configuration or the schema file
changed; if it cannot be loaded, the builtin schema takes its place.
-/
namespace EmbeddedGraphQL

/-- What a log shows of an event that needs attention. -/
inductive Alert where
  | warning
  | error
  deriving DecidableEq, Repr

def Alert.name : Alert → String
  | warning => "WARNING"
  | error => "ERROR"

/-- What happens when an address is asked. The client does not take every text for an address, and
does not ask one that it does not take. -/
inductive Endpoint where
  | refused
  | unreachable
  | answers (status : Int) (body : Utf8.Bytes)
  deriving DecidableEq, Repr

/-- Everything outside that a project depends on. -/
structure Surroundings where
  tree : FileTree
  endpoint : Endpoint
  deriving Repr

/-- A request for introspection JSON, with header names in lower case. -/
structure Inquiry where
  method : String
  url : String
  headers : List (String × String)
  introspects : Bool
  deriving DecidableEq, Repr

/-- A fault of the configuration that loading does not expect. -/
inductive LoadFault where
  | config (fault : ConfigFault)
  | fileNotText
  | nulInName
  | unpairedName
  | addressNotText
  | unpairedAddress
  | refusedAddress
  | relativeAddress
  | headerNotText
  | headerNotAscii
  | introspection (e : IntrospectionError)

/-- What came of an attempt to load a schema. -/
inductive Loading where
  | unconfigured
  | noSource
  | failed
  | loaded (s : Schema) (source : String)

/-- What a project directory looked like when its schema was loaded. -/
structure Fingerprint where
  directory : String
  config : Option Int
  schema : Option Int
  deriving DecidableEq, Repr

/-- The schema in use and the directory that it comes from. -/
structure Project where
  store : Store
  directory : Option String
  seen : Option Fingerprint

/-- A project after a step, with what the step logged, what it asked, and its result. -/
structure Step (α : Type) where
  project : Project
  alerts : List Alert
  inquiries : List Inquiry
  result : Except LoadFault α

namespace Project

def initial : Project := ⟨.initial, none, none⟩

/-- The object that a file holds. -/
def fileObject? (tree : FileTree) (name : String) : Option Json :=
  match tree.find name with
  | .file f =>
    match (Utf8.decode? f.bytes).bind fun text => Json.parse? (String.ofList text) with
    | some (.obj members) => some (.obj members)
    | _ => none
  | _ => none

/-- Builds the schema of an introspection result. -/
def build (data : Json) (source : String) : Except LoadFault Loading :=
  match Schema.ofIntrospection data with
  | .ok s => .ok (.loaded s source)
  | .error e => if e.isUnexpected then .error (.introspection e) else .ok .failed

/-- The name of the schema file that a configuration gives, none if no file can have it: the names
of files are well formed. -/
def schemaFile (directory : String) (file : Json) : Except LoadFault (Option String) :=
  match file.points? with
  | some _ => .ok (file.str?.map (PathName.join directory))
  | none => .error .fileNotText

/-- The name of the schema file that a directory's configuration gives, if it gives one. -/
def schemaFile? (tree : FileTree) (directory : String) : Option String := do
  let data ← fileObject? tree (PathName.join directory ProjectConfig.fileName)
  let config ← (ProjectConfig.ofJson data).toOption
  if config.file.isGiven then (schemaFile directory config.file).toOption.join else none

/-- Adds a header; values under names that differ in case only are joined. -/
def addHeader (headers : List (String × String)) (name value : String) :
    List (String × String) :=
  let name := name.toLower
  if headers.any (·.1 == name) then
    headers.map fun (n, v) => if n == name then (n, v ++ ", " ++ value) else (n, v)
  else headers ++ [(name, value)]

def isAscii (s : String) : Bool := s.toList.all fun c => c.val.toNat < 128

def headerTexts (headers : List (String × Json)) : Except LoadFault (List (String × String)) :=
  headers.mapM fun (name, value) =>
    match value with
    | .str text =>
      if isAscii name && isAscii text then .ok (name, text) else .error .headerNotAscii
    | .unpaired _ => .error .headerNotAscii
    | _ => .error .headerNotText

def isSchemeChar (c : Char) : Bool := c.isAlphanum || c == '+' || c == '.' || c == '-'

/-- What stands between the scheme of an address with its two slashes and the path, the query or the
fragment, if the address has a scheme. -/
def authority? (url : List Char) : Option (List Char) :=
  let scheme := url.takeWhile isSchemeChar
  match url.drop scheme.length with
  | ':' :: '/' :: '/' :: rest =>
    if scheme.head?.any Char.isAlpha then
      some (rest.takeWhile fun c => c != '/' && c != '?' && c != '#')
    else none
  | _ => none

/-- Whether an address names a host, which stands behind the user and in front of the port. -/
def hasHost (url : String) : Bool :=
  (authority? url.toList).any fun authority =>
    let place := (authority.reverse.takeWhile (· != '@')).reverse
    place.head?.any (· != ':')

/-- The inquiry for a remote source. -/
def inquiry (source : RemoteSource) : Except LoadFault Inquiry := do
  let url ← match source.url with
    | .str url => .ok (if hasHost url then url else "/" ++ (url.dropWhile (· == '/')).toString)
    | .unpaired _ => .error .unpairedAddress
    | _ => .error .addressNotText
  let headers ← headerTexts
    (if source.post then Json.insert source.headers "Content-Type" (.str "application/json")
      else source.headers)
  return {
    method := if source.post then "POST" else source.method
    url
    headers := headers.foldl (fun done (name, value) => addHeader done name value) []
    introspects := source.post }

/-- Loads the schema of a remote source from the answer to an inquiry. -/
def ofAnswer (source : RemoteSource) : Endpoint → Except LoadFault Loading
  | .refused => .error .refusedAddress
  | .unreachable => .ok .failed
  | .answers status body =>
    match source.url with
    | .str url =>
      if !hasHost url then .error .relativeAddress
      else if status ≠ 200 then .ok .failed
      else match Json.ofBytes? body with
        | some data => build data url
        | none => .ok .failed
    | _ => .error .addressNotText

/-- Reads the schema that the configuration of a directory names. -/
def read (around : Surroundings) (directory : String) :
    List Inquiry × Except LoadFault Loading :=
  let name := PathName.join directory ProjectConfig.fileName
  match around.tree.find name with
  | .file _ =>
    match fileObject? around.tree name with
    | none => ([], .ok .failed)
    | some data =>
      match ProjectConfig.ofJson data with
      | .error fault => ([], .error (.config fault))
      | .ok config =>
        if config.file.isGiven then
          match schemaFile directory config.file with
          | .error fault => ([], .error fault)
          | .ok none => ([], .ok .failed)
          | .ok (some path) =>
            match fileObject? around.tree path with
            | some data => ([], build data path)
            | none => ([], .ok .failed)
        else match config.remote with
          | none => ([], .ok .noSource)
          | some source =>
            match inquiry source with
            | .error fault => ([], .error fault)
            | .ok asked =>
              (if around.endpoint = .refused then [] else [asked], ofAnswer source around.endpoint)
  | _ => ([], .ok .unconfigured)

/-- Puts the outcome of loading into the store. -/
def install (p : Project) : Loading → Project × List Alert
  | .unconfigured => ({ p with store := p.store.reset }, [])
  | .noSource => ({ p with store := p.store.reset }, [.warning])
  | .failed => ({ p with store := p.store.reset }, [.error])
  | .loaded s source => ({ p with store := p.store.replace (.loaded s) source }, [])

/-- Loads the schema of the directory; without one there is the builtin schema. -/
def load (around : Surroundings) (p : Project) : Step Unit :=
  match p.directory with
  | none => ⟨(p.install .unconfigured).1, [], [], .ok ()⟩
  | some directory =>
    match read around directory with
    | (inquiries, .ok loading) =>
      let (p, alerts) := p.install loading
      ⟨p, alerts, inquiries, .ok ()⟩
    | (inquiries, .error fault) => ⟨p, [], inquiries, .error fault⟩

/-- The system refuses to look some names up. -/
def checkName (points : List CodePoint) : Except LoadFault Unit :=
  if !points.all CodePoint.isNameable then .error .unpairedName
  else if points.contains (.char '\x00') then .error .nulInName
  else .ok ()

/-- When the schema file that a configuration gives was last changed, none if there is no file. -/
def schemaTime (tree : FileTree) (directory : String) (file : Json) :
    Except LoadFault (Option Int) := do
  checkName (file.points?.getD [])
  return (← schemaFile directory file).bind tree.modified?

/-- What a directory looks like now. Of a configuration that cannot be read only its time counts. -/
def fingerprint (tree : FileTree) (directory : String) : Except LoadFault Fingerprint := do
  checkName (directory.toList.map .char)
  let name := PathName.join directory ProjectConfig.fileName
  match tree.modified? name with
  | none => .ok ⟨directory, none, none⟩
  | some time =>
    match fileObject? tree name with
    | none => .ok ⟨directory, some time, none⟩
    | some data =>
      match ProjectConfig.ofJson data with
      | .error fault => .error (.config fault)
      | .ok config =>
        if config.file.isGiven then
          (schemaTime tree directory config.file).map fun schema => ⟨directory, some time, schema⟩
        else .ok ⟨directory, some time, none⟩

/-- Loads the schema if the directory has changed since it was last looked at, and tells whether it
did. -/
def refresh (around : Surroundings) (p : Project) : Step Bool :=
  match p.directory with
  | none => ⟨p, [], [], .ok false⟩
  | some directory =>
    match fingerprint around.tree directory with
    | .error fault => ⟨p, [], [], .error fault⟩
    | .ok now =>
      if p.seen = some now then ⟨p, [], [], .ok false⟩
      else
        let step := load around { p with seen := some now }
        ⟨step.project, step.alerts, step.inquiries, step.result.map fun _ => true⟩

/-- Changes to a directory, which the next refresh loads; an empty name or none at all goes back to
the builtin schema. -/
def select (p : Project) (directory : Option String) : Project :=
  match directory with
  | some name =>
    if name == "" then { p with directory := none, seen := none, store := p.store.reset }
    else { p with directory := some (PathName.normalize name), seen := none }
  | none => { p with directory := none, seen := none, store := p.store.reset }

end Project
end EmbeddedGraphQL
