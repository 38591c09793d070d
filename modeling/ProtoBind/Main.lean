/-
The command line program.

The schema files that a command can ask for are gathered from the disk: those
it names, and those that gathered files import, in every directory of the
search path. The command then runs on what was gathered, its messages are
printed, and the files it wrote go to the disk.
-/
import ProtoBind.Command.Run

namespace ProtoBind.Main

open Command (Environment Job)
open Files (Workspace)

/-- The variables that the command looks at. -/
def variableNames : List String :=
  ["PW_OUTPUT_DIR", "PW_PROTO_PATH", "PW_NAMING", "PW_MODULE_PREFIX", "PW_VERBOSE"]

/-- The variables that are set. -/
def environment : IO Environment :=
  variableNames.filterMapM fun name => do
    return (← IO.getEnv name).map fun v => (name, v)

/-- The text of a file, if it can be read. -/
def readText? (name : String) : IO (Option String) := do
  try
    return some (← IO.FS.readFile name)
  catch _ => return none

/-- The files that a text imports; none if it is not a schema. -/
def importsOf (text : String) : List String :=
  match Source.parse text with
  | .ok (decls, _) => Schema.importsOf decls
  | .error _ => []

/-- The names under which the input files are loaded, and the search path they leave. -/
def origins (w : Workspace) (includes : List String) : List String → List String × List String
  | [] => ([], includes)
  | file :: rest =>
    let (name, includes) := Files.originName w includes file
    let (names, includes) := origins w includes rest
    (name :: names, includes)

/-- Puts the files with a name in the search path, and what they import, on the disk. -/
partial def gather (includes : List String) (w : Workspace) (name : String) : IO Workspace :=
  includes.foldlM (fun w directory => do
    let p := w.absolute (Files.below directory name)
    if (w.disk.get? p).isSome then return w
    match ← readText? (Files.rootedName p) with
    | none => return w
    | some text => (importsOf text).foldlM (gather includes) { w with disk := w.disk.put p text }) w

/-- The files that a job can ask for. -/
def workspaceFor (here : String) (job : Job) : IO Workspace := do
  let w : Workspace := ⟨.empty, (Files.parts here).filter (!·.isEmpty)⟩
  let (names, includes) := origins w job.includes job.input
  names.foldlM (gather includes) w

/-- Writes the files that a command wrote. -/
def store (before after : Workspace) : IO Unit :=
  for (p, text) in after.disk.files do
    if before.disk.get? p != some text then
      IO.FS.createDirAll (Files.rootedName p.dropLast)
      IO.FS.writeFile (Files.rootedName p) text

def usage : String :=
  "usage: protobind --input FILE [FILE ...] --output DIRECTORY [--proto-path DIRECTORY]\n" ++
  "         [--naming snake_case|lower|preserve] [--index] [--module-prefix PACKAGE]\n" ++
  "         [--jobs N] [--fail-fast] [--verbose]"

/-- The workspace of a command; one that asks for no job needs no files. -/
def workspaceOf (env : Environment) (here : String) (args : List String) : IO Workspace :=
  match Command.Arguments.parse args with
  | .ok args =>
    match Command.job env args with
    | .ok job => workspaceFor here job
    | .error _ => return ⟨.empty, []⟩
  | .error _ => return ⟨.empty, []⟩

/-- Runs the command and returns its exit status. -/
def perform (args : List String) : IO UInt32 := do
  let env ← environment
  let here ← IO.currentDir
  let w ← workspaceOf env here.toString args
  let (ending, session) := Command.run env args w
  for line in session.stderr do
    IO.eprintln line
  for line in session.stdout do
    IO.println line
  store w session.workspace
  match ending with
  | .usage .help =>
    IO.println usage
    return 0
  | .usage .misuse =>
    IO.eprintln usage
    return 2
  | .exit status => return UInt32.ofNat status
  | .crashed _ =>
    IO.eprintln "protobind: the schema could not be processed"
    return 1

end ProtoBind.Main

def main (args : List String) : IO UInt32 := ProtoBind.Main.perform args
