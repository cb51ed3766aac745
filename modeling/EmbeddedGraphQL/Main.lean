import EmbeddedGraphQL.CommandLine.Run
import EmbeddedGraphQL.Service.Session

/-!
The program. Files and variables are collected for an invocation, and what it says is carried out. A
server answers requests that are written as JSON, one a line.
-/
namespace EmbeddedGraphQL.Program

/-- Adds what the disk holds under a name; a file's time is told by its content. -/
def collect (tree : FileTree) (name : String) : IO FileTree := do
  try
    let bytes ← IO.FS.readBinFile name
    return tree.write name ⟨(hash bytes).toNat, bytes.toList⟩
  catch
    | .noFileOrDirectory .. => return tree.makeFolder (tree.place (PathName.parent name))
    | _ => return tree.makeFolder (tree.place name)

def environ : IO Settings.Variables := do
  let found ← Settings.variableNames.mapM fun name => do
    return (← IO.getEnv name).map (name, ·)
  return found.filterMap id

partial def readAll (input : IO.FS.Stream) (read : String) : IO String := do
  let line ← input.getLine
  if line.isEmpty then return read else readAll input (read ++ line)

/-- The files of the project that a request finds. -/
def surroundings (session : Session) (request : Request) : IO Surroundings := do
  let start := FileTree.empty ["."]
  let project := session.project
  let found := Session.projectFor project request (Command.ofName? request.command)
  match found.directory with
  | none => return ⟨start, .unreachable⟩
  | some directory =>
    let tree ← collect start (PathName.join directory ProjectConfig.fileName)
    match Project.schemaFile? tree directory with
    | some name => return ⟨← collect tree name, .unreachable⟩
    | none => return ⟨tree, .unreachable⟩

partial def answerLines (input output : IO.FS.Stream) (session : Session) : IO Unit := do
  let line ← input.getLine
  if line.isEmpty then return
  match (Json.parse? line).map Request.ofJson with
  | some (.ok request) =>
    let turn := session.handle (← surroundings session request) request
    match turn.result with
    | .ok reply => output.putStrLn reply.content.compact
    | .error _ => output.putStrLn Json.null.compact
    output.flush
    answerLines input output turn.session
  | _ =>
    output.putStrLn Json.null.compact
    output.flush
    answerLines input output session

def serve (serving : CommandLine.Serving) : IO Unit := do
  let session := Session.start serving.defaultEnv
  let project := match serving.projectDir with
    | some directory => session.project.select (some directory)
    | none => session.project
  answerLines (← IO.getStdin) (← IO.getStdout) { session with project }

end EmbeddedGraphQL.Program

open EmbeddedGraphQL in
def main (arguments : List String) : IO UInt32 := do
  let invocation := CommandLine.Invocation.ofArguments arguments
  let tree ← invocation.files.foldlM Program.collect (FileTree.empty ["."])
  let input ← if invocation.readsInput then Program.readAll (← IO.getStdin) "" else pure ""
  match CommandLine.run ⟨tree, input, ← Program.environ⟩ invocation with
  | .error _ =>
    IO.eprintln "gqlbridge: unable to run"
    return 1
  | .ok result =>
    IO.print result.output
    if let some (name, text) := result.written then IO.FS.writeFile name text
    if let some serving := result.served then Program.serve serving
    return result.exitCode.toUInt32
