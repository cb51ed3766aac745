import EmbeddedGraphQL.Json.Shown
import EmbeddedGraphQL.Decimal.Numeral
import EmbeddedGraphQL.Embedding.Environment
import EmbeddedGraphQL.Text.Upper
import EmbeddedGraphQL.Yaml.Reading
import EmbeddedGraphQL.Yaml.Writing

/-!
Settings of the server. They come from a file, then from variables of the environment, and are
checked once all sources have been read; until then host, project directory and default environment
are whatever the file says.
-/
namespace EmbeddedGraphQL

structure Settings where
  host : Json
  port : Int
  logLevel : String
  projectDir : Json
  defaultEnv : Json
  corsOrigins : List Json
  timeout : Float

/-- Why settings cannot be made of a value. -/
inductive SettingsFault where
  | noMembers
  | notNumeral
  | notNumber
  | notFinite
  | notListed
  deriving DecidableEq, Repr

namespace Settings

abbrev Outcome := Except SettingsFault

def default : Settings := ⟨.str "127.0.0.1", 8000, "INFO", .null, .str "plain", [], 30.0⟩

def fileName : String := "gqlbridge.yaml"

/-- A member of an object, or the default if there is none. -/
def member (j : Json) (key : String) (default : Json) : Outcome Json :=
  match j with
  | .obj members => .ok ((members.lookup key).getD default)
  | _ => .error .noMembers

/-- A member that is an object, where nothing given counts as the empty one. -/
def part (j : Json) (key : String) : Outcome Json := do
  let value ← member j key .null
  return if value.isGiven then value else .obj []

/-- Numerals of more digits are not read. -/
def longestNumeral : Nat := 4300

def wholeNumeral (s : String) : Outcome Int :=
  if longestNumeral < (s.toList.filter fun c => (Text.digitValue? c).isSome).length then
    .error .notNumeral
  else (Text.wholeNumber? s).elim (.error .notNumeral) .ok

/-- A whole number; fractions are cut off. -/
def whole : Json → Outcome Int
  | .int n => .ok n
  | .bool b => .ok (if b then 1 else 0)
  | .float x =>
    match Decimal.binary? x with
    | some b => .ok b.truncate
    | none => .error (if x == x then .notFinite else .notNumeral)
  | .str s => wholeNumeral s
  | .unpaired _ => .error .notNumeral
  | _ => .error .notNumber

def float : Json → Outcome Float
  | .int n => (Decimal.ofWhole? n).elim (.error .notFinite) .ok
  | .bool b => .ok (if b then 1.0 else 0.0)
  | .float x => .ok x
  | .str s => (Decimal.numeral? s).elim (.error .notNumeral) .ok
  | .unpaired _ => .error .notNumeral
  | _ => .error .notNumber

/-- The items of a list, the keys of an object, or the characters of a text. -/
def listed (j : Json) : Outcome (List Json) :=
  if !j.isGiven then .ok []
  else match j with
    | .arr items => .ok items
    | .obj members => .ok (members.map fun (key, _) => .str key)
    | .str s => .ok (s.toList.map fun c => .str c.toString)
    | .unpaired points => .ok (points.map fun point => .ofPoints [point])
    | _ => .error .notListed

/-- The settings that a value writes, with defaults for what it leaves out. -/
def ofJson (data : Json) : Outcome Settings := do
  let server ← part data "server"
  let schema ← part data "schema"
  let host ← member server "host" default.host
  let port ← whole (← member server "port" (.int default.port))
  let logLevel := Text.upper (← member data "log_level" (.str default.logLevel)).messageForm
  let projectDir ← member schema "project_dir" default.projectDir
  let defaultEnv ← member data "default_env" default.defaultEnv
  let corsOrigins ← listed (← member server "cors_origins" (.arr []))
  let timeout ← float (← member schema "timeout" (.float default.timeout))
  return { host, port, logLevel, projectDir, defaultEnv, corsOrigins, timeout }

def toJson (s : Settings) : Json :=
  .obj [
    ("server", .obj [
      ("host", s.host), ("port", .int s.port), ("cors_origins", .arr s.corsOrigins)]),
    ("schema", .obj [("project_dir", s.projectDir), ("timeout", .float s.timeout)]),
    ("default_env", s.defaultEnv),
    ("log_level", .str s.logLevel)]

/-- The text of a settings file. -/
def fileText (s : Settings) : String :=
  match s.toJson with
  | .obj members => Yaml.mapping 0 members ++ "\n"
  | _ => ""

/-- The settings that a value in a file writes; a file that says nothing leaves the defaults. -/
def ofFile (data : Json) : Outcome Settings := ofJson (if data.isGiven then data else .obj [])

/-! Variables of the environment -/

abbrev Variables := List (String × String)

def variablePrefix : String := "GQLBRIDGE_"

/-- The variables that override settings. -/
def variableNames : List String :=
  ["HOST", "PORT", "LOG_LEVEL", "PROJECT_DIR", "DEFAULT_ENV", "CORS_ORIGINS"].map
    (variablePrefix ++ ·)

def named? (environ : Variables) (name : String) : Option String :=
  environ.lookup (variablePrefix ++ name)

/-- The parts between commas that are not blank, without blanks around them. -/
def commaList (text : String) : List String :=
  ((text.splitOn ",").map fun part => String.ofList (Text.strip Text.isBlank part.toList)).filter
    (· != "")

/-- The settings after variables of the environment have overridden them. -/
def override (s : Settings) (environ : Variables) : Outcome Settings := do
  let given := named? environ
  let port ← match given "PORT" with
    | some text => wholeNumeral text
    | none => .ok s.port
  return { s with
    host := ((given "HOST").map .str).getD s.host
    port
    logLevel := ((given "LOG_LEVEL").map Text.upper).getD s.logLevel
    projectDir := ((given "PROJECT_DIR").map fun dir =>
      if dir == "" then .null else .str dir).getD s.projectDir
    defaultEnv := ((given "DEFAULT_ENV").map .str).getD s.defaultEnv
    corsOrigins := ((given "CORS_ORIGINS").map fun text => (commaList text).map .str).getD
      s.corsOrigins }

/-! Checks -/

def logLevels : List String := ["DEBUG", "INFO", "WARNING", "ERROR", "CRITICAL"]

def environmentNames : List String := Environment.known.map Environment.name

def isKnownEnvironment : Json → Bool
  | .str name => environmentNames.contains name
  | _ => false

private def choiceProblem (setting : String) (choices : List String) (found : String) : String :=
  setting ++ " must be one of " ++ ", ".intercalate choices ++ ", got '" ++ found ++ "'"

/-- What is wrong with the settings. -/
def problems (s : Settings) : List String :=
  (if isKnownEnvironment s.defaultEnv then []
    else [choiceProblem "default_env" environmentNames s.defaultEnv.messageForm]) ++
  (if logLevels.contains s.logLevel then []
    else [choiceProblem "log_level" logLevels s.logLevel]) ++
  (if 0 < s.port ∧ s.port < 65536 then []
    else [s!"port must be between 1 and 65535, got {s.port}"])

end Settings
end EmbeddedGraphQL
