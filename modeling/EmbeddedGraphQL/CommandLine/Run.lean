import EmbeddedGraphQL.CommandLine.Help
import EmbeddedGraphQL.CommandLine.Invocation
import EmbeddedGraphQL.Service.Command

/-!
Running an invocation: what it prints, how it exits, the file that it writes, and the server that it
asks for.
-/
namespace EmbeddedGraphQL.CommandLine

/-- A server that is asked for. -/
structure Serving where
  host : Json
  port : Int
  logLevel : String
  defaultEnv : Environment
  projectDir : Option String
  corsOrigins : List Json
  timeout : Float

structure Result where
  exitCode : Nat
  output : String
  written : Option (String × String)
  served : Option Serving

/-- What an invocation does not get over. -/
inductive RunFault where
  | yaml (fault : Yaml.ReadFault)
  | settings (fault : SettingsFault)
  | noFile
  | isFolder
  | notFolder
  | notText
  | projectNotText
  deriving DecidableEq, Repr

/-- Everything outside that an invocation depends on. -/
structure Setting where
  tree : FileTree
  input : String
  environ : Settings.Variables

def versionText : String := "gqlbridge 0.1.0"

namespace Run

abbrev Outcome := Except RunFault

def printed (exitCode : Nat) (lines : List String) : Result :=
  ⟨exitCode, String.join (lines.map (· ++ "\n")), none, none⟩

/-- Makes every line end a line feed. -/
def unifyLines : List Char → List Char
  | [] => []
  | '\r' :: '\n' :: rest => '\n' :: unifyLines rest
  | c :: rest => (if c = '\r' then '\n' else c) :: unifyLines rest

/-- The text of bytes with line ends made equal. -/
def textOf? (bytes : Utf8.Bytes) : Option (List Char) := (Utf8.decode? bytes).map unifyLines

def openFault : PathTarget → RunFault
  | .missing => .noFile
  | .notFolder => .notFolder
  | _ => .isFolder

/-- How the operating system words a fault with a file. -/
def faultText (name : String) : RunFault → String
  | .noFile => "[Errno 2] No such file or directory: " ++ Text.quoted name
  | .notFolder => "[Errno 20] Not a directory: " ++ Text.quoted name
  | _ => "[Errno 21] Is a directory: " ++ Text.quoted name

def init (tree : FileTree) (config : String) (projectDir defaultEnv : Option String)
    (force : Bool) : Outcome Result :=
  let name := PathName.normalize config
  let settings : Settings := { Settings.default with
    projectDir := (projectDir.map .str).getD .null
    defaultEnv := .str (match defaultEnv with
      | some env => if env == "" then "plain" else env
      | none => "plain") }
  let create : Outcome Result :=
    .ok { printed 0 ["Created " ++ name] with written := some (name, settings.fileText) }
  let refused := s!"Error: {name} already exists. Use --force to overwrite."
  match tree.find name with
  | .file _ => if force then create else .ok (printed 1 [refused])
  | .folder => if force then .error .isFolder else .ok (printed 1 [refused])
  | .notFolder => .error .notFolder
  | .missing =>
    match tree.find (PathName.parent name) with
    | .folder => create
    | _ => .error .noFile

/-- The settings that a file holds, none if there is no file. -/
def settingsOf (tree : FileTree) (config : String) : Outcome (Option Settings) :=
  match tree.find (PathName.normalize config) with
  | .file f =>
    match textOf? f.bytes with
    | none => .error .notText
    | some text => do
      let data ← (Yaml.read (String.ofList text)).mapError .yaml
      return some (← (Settings.ofFile data).mapError .settings)
  | .folder => .error .isFolder
  | _ => .ok none

/-- The settings of the file, overridden by variables and then by arguments. -/
def resolve (setting : Setting) (config : String) (given : GivenSettings) : Outcome Settings := do
  let settings := (← settingsOf setting.tree config).getD .default
  let settings ← (settings.override setting.environ).mapError .settings
  return { settings with
    host := (given.host.map .str).getD settings.host
    port := given.port.getD settings.port
    projectDir := (given.projectDir.map .str).getD settings.projectDir
    defaultEnv := (given.defaultEnv.map .str).getD settings.defaultEnv
    logLevel := (given.logLevel.map Text.upper).getD settings.logLevel }

def serve (setting : Setting) (config : String) (given : GivenSettings) : Outcome Result := do
  let settings ← resolve setting config given
  let problems := settings.problems
  if !problems.isEmpty then return printed 1 (problems.map ("Error: " ++ ·))
  let projectDir ←
    if !settings.projectDir.isGiven then .ok none
    else match settings.projectDir with
      | .str name => .ok (some (PathName.normalize name))
      | .unpaired points => .ok (some (PathName.normalize (CodePoint.spelled points)))
      | _ => .error .projectNotText
  return { printed 0 [] with
    served := some {
      host := settings.host
      port := settings.port
      logLevel := settings.logLevel.toLower
      defaultEnv := .ofName (settings.defaultEnv.str?.getD "")
      projectDir
      corsOrigins := settings.corsOrigins
      timeout := settings.timeout } }

/-- The text of a file, or of the standard input under the name of a dash. -/
def bufferOf (setting : Setting) (file : String) : Outcome (List Char) :=
  if file == "-" then .ok (unifyLines setting.input.toList)
  else match setting.tree.find (PathName.normalize file) with
    | .file f => (textOf? f.bytes).elim (.error .notText) .ok
    | target => .error (openFault target)

/-- Prints what becomes of a file; a file that cannot be opened is told instead. -/
def onBuffer (setting : Setting) (file : String) (answer : List Char → List String) :
    Outcome Result :=
  match bufferOf setting file with
  | .ok buffer => .ok (printed 0 (answer buffer))
  | .error .notText => .error .notText
  | .error fault => .ok (printed 1 ["Error: " ++ faultText (PathName.normalize file) fault])

/-- The extracted document, and below it the insertions and the templates. -/
def transformed (environment : Environment) (buffer : List Char) : List String :=
  let r := Extraction.ofBuffer environment buffer
  let shift (i : Insertion) : Json :=
    .obj [("position", .int i.position), ("length", .int i.length)]
  let notes : Json := .obj [
    ("shifts", .arr (r.ledger.insertions.map shift)),
    ("templates", .obj (r.scan.templates.map fun t => (toString t.start, .text t.text)))]
  [String.ofList r.transformed, notes.indented 0]

def tokens (environment : Environment) (buffer : List Char) : List String :=
  let found := Service.tokens (Extraction.ofBuffer environment buffer)
  let answer : Json := .obj [("tokens", .arr (found.map Token.toJson))]
  [answer.indented 0]

end Run

/-- Runs an invocation. -/
def run (setting : Setting) : Invocation → Except RunFault Result
  | .help g => .ok ⟨0, Help.text g, none, none⟩
  | .version => .ok (Run.printed 0 [versionText])
  | .invalid => .ok (Run.printed 2 [])
  | .init config projectDir defaultEnv force =>
    Run.init setting.tree config projectDir defaultEnv force
  | .serve config given => Run.serve setting config given
  | .transform file environment => Run.onBuffer setting file (Run.transformed environment)
  | .tokens file environment => Run.onBuffer setting file (Run.tokens environment)

end EmbeddedGraphQL.CommandLine
