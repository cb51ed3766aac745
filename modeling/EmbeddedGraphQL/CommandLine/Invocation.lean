import EmbeddedGraphQL.CommandLine.Grammar
import EmbeddedGraphQL.Settings.Basic

/-!
The commands of the program and their arguments.
-/
namespace EmbeddedGraphQL.CommandLine

/-- Settings that are given as arguments. -/
structure GivenSettings where
  host : Option String
  port : Option Int
  projectDir : Option String
  defaultEnv : Option String
  logLevel : Option String
  deriving DecidableEq, Repr

inductive Invocation where
  | help (g : Grammar)
  | version
  | invalid
  | init (config : String) (projectDir defaultEnv : Option String) (force : Bool)
  | serve (config : String) (given : GivenSettings)
  | transform (file : String) (environment : Environment)
  | tokens (file : String) (environment : Environment)
  deriving DecidableEq, Repr

namespace Invocation

private def helpOption : OptionSpec :=
  ⟨["-h", "--help"], .help, "", [], false, "show this help message and exit"⟩

private def valueOption (names : List String) (placeholder help : String) : OptionSpec :=
  ⟨names, .value, placeholder, [], false, help⟩

private def environmentOption (names : List String) (help : String) : OptionSpec :=
  ⟨names, .value, "", Settings.environmentNames, false, help⟩

private def projectOption : OptionSpec :=
  valueOption ["--project-dir"] "PROJECT_DIR" "Project directory with graphql.config.json"

private def defaultOption : OptionSpec :=
  environmentOption ["--default-env"] "Default environment"

def program : Grammar where
  program := "gqlbridge"
  description := "gqlbridge - GraphQL language service for tagged templates"
  options := [
    helpOption,
    ⟨["--version"], .version, "", [], false, "show program's version number and exit"⟩,
    valueOption ["--config", "-c"] "CONFIG" "Config file path",
    valueOption ["--log-level"] "LOG_LEVEL" "Logging level (DEBUG, INFO, ...)"]
  positional := .command [
    ("init", "Write a default config file"),
    ("serve", "Run the language server"),
    ("transform", "Show the transformed buffer of a file"),
    ("tokens", "Print reverse-mapped tokens of a file")] "Available commands"

def initGrammar : Grammar where
  program := "gqlbridge init"
  description := ""
  options := [helpOption, projectOption, defaultOption,
    ⟨["--force", "-f"], .flag, "", [], false, "Overwrite existing config"⟩]
  positional := .nothing

def serveGrammar : Grammar where
  program := "gqlbridge serve"
  description := ""
  options := [helpOption, valueOption ["--host"] "HOST" "Bind host",
    { valueOption ["--port", "-p"] "PORT" "Bind port" with isWhole := true },
    projectOption, defaultOption]
  positional := .nothing

private def fileGrammar (command : String) : Grammar where
  program := "gqlbridge " ++ command
  description := ""
  options := [helpOption, environmentOption ["--env", "-e"] "Environment"]
  positional := .one "file" "GraphQL file ('-' for stdin)"

def transformGrammar : Grammar := fileGrammar "transform"

def tokensGrammar : Grammar := fileGrammar "tokens"

/-- The grammar of a command. -/
def grammar? (command : String) : Option Grammar :=
  [("init", initGrammar), ("serve", serveGrammar), ("transform", transformGrammar),
    ("tokens", tokensGrammar)].lookup command

/-- The environment that an option names; embedded text is taken for Relay's unless it is said. -/
private def environment (a : Arguments) : Environment :=
  ((a.value? "--env").map Environment.ofName).getD .relay

/-- The invocation that a command with its arguments makes. -/
def ofCommand (main : Arguments) (command : String) (a : Arguments) : Invocation :=
  let config := (main.value? "--config").getD Settings.fileName
  let projectDir := a.value? "--project-dir"
  let defaultEnv := a.value? "--default-env"
  match command with
  | "init" => .init config projectDir defaultEnv (a.flags.contains "--force")
  | "serve" =>
    .serve config {
      host := a.value? "--host"
      port := (a.value? "--port").bind Text.wholeNumber?
      projectDir
      defaultEnv
      logLevel := main.value? "--log-level" }
  | "transform" => .transform (a.positional.getD "") (environment a)
  | _ => .tokens (a.positional.getD "") (environment a)

/-- The files that an invocation depends on. -/
def files : Invocation → List String
  | .init config _ _ _ => [config]
  | .serve config _ => [config]
  | .transform file _ | .tokens file _ => if file == "-" then [] else [file]
  | _ => []

/-- Whether an invocation reads the standard input before it prints anything. -/
def readsInput : Invocation → Bool
  | .transform file _ | .tokens file _ => file == "-"
  | _ => false

/-- Reads the arguments of the program. -/
def ofArguments (arguments : List String) : Invocation :=
  match program.parse arguments with
  | .help => .help program
  | .version => .version
  | .invalid => .invalid
  | .read main =>
    match main.positional with
    | none => if main.unrecognized then .invalid else .help program
    | some command =>
      match grammar? command with
      | none => .invalid
      | some grammar =>
        match grammar.parse main.rest with
        | .help => .help grammar
        | .version => .version
        | .invalid => .invalid
        | .read a =>
          if main.unrecognized || a.unrecognized then .invalid else ofCommand main command a

end Invocation
end EmbeddedGraphQL.CommandLine
