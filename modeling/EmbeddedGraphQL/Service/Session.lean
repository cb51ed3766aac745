import EmbeddedGraphQL.Service.Command

/-!
A session answers the requests of an editor one after another. Before a request is answered the
project is refreshed, so that an answer always comes from the schema as it is now.
-/
namespace EmbeddedGraphQL

structure Session where
  project : Project
  defaultEnvironment : Environment

/-- A session after a request, with what was logged and asked on the way, and the answer. -/
structure Turn where
  session : Session
  alerts : List Alert
  inquiries : List Inquiry
  result : Except ServiceFault Reply

namespace Session

def start (default : Environment) : Session := ⟨.initial, default⟩

/-- The answer to a command that is not known. -/
def unknownCommand (name : String) : Reply :=
  .json (.obj [("error", .str ("Unknown command \"" ++ name ++ "\""))])

/-- The project as a request finds it, where the command that changes the directory has done so. -/
def projectFor (p : Project) (request : Request) : Option Command → Project
  | some .projectDirectory => p.select request.projectDir
  | _ => p

/-- Answers one request. -/
def handle (around : Surroundings) (session : Session) (request : Request) : Turn :=
  let command := Command.ofName? request.command
  let step := (projectFor session.project request command).refresh around
  let session := { session with project := step.project }
  match step.result with
  | .error fault => ⟨session, step.alerts, step.inquiries, .error (.loading fault)⟩
  | .ok _ =>
    match command with
    | none =>
      ⟨session, step.alerts ++ [.warning], step.inquiries, .ok (unknownCommand request.command)⟩
    | some command =>
      ⟨session, step.alerts ++ Service.alerts session.defaultEnvironment request command,
        step.inquiries,
        Service.reply session.project.store session.defaultEnvironment request command⟩

end Session
end EmbeddedGraphQL
