/-
The command: arguments and environment in, exit status and messages out.
-/
import ProtoBind.Command.Arguments
import ProtoBind.Command.Session

namespace ProtoBind.Command

/-- Variables of the environment. -/
abbrev Environment := List (String × String)

/-- A variable that is set to a word for yes; if it is not set, the default. -/
def Environment.flag (env : Environment) (name : String) (default : Bool) : Bool :=
  match env.lookup name with
  | none => default
  | some v => ["1", "true", "yes", "on"].contains (Text.lowerAscii (Text.trim v))

/-- The directories in a variable, or else those of the arguments. -/
def includePath (env : Environment) (args : Arguments) : List String :=
  let given := (env.lookup "PW_PROTO_PATH").getD ""
  if given.isEmpty then args.searchPath else (Text.splitOnChar ':' given).filter (!·.isEmpty)

/-- The settings of the arguments, overridden by the environment. -/
def settings (env : Environment) (args : Arguments) : Codegen.Settings :=
  { naming := (env.lookup "PW_NAMING").getD args.naming
    emitIndex := args.index
    package := (env.lookup "PW_MODULE_PREFIX").getD args.package
    failFast := args.failFast
    jobs := args.jobs
    verbose := env.flag "PW_VERBOSE" args.verbose }

/-- Loads and generates; the exit status. -/
def perform [Source.CharacterNames] (job : Job) : Step Nat := do
  if !(← load job) then return 1
  if ← generate job then
    Step.print "Code generation completed successfully."
    return 0
  Step.print "Code generation completed with errors."
  return 1

/-- The job that arguments and environment ask for. -/
def job (env : Environment) (args : Arguments) : Except Codegen.SettingsFault Job := do
  return {
    input := args.input
    output := (env.lookup "PW_OUTPUT_DIR").getD args.output
    includes := includePath env args
    options := ← (settings env args).options }

/-- How a command ended. -/
inductive Ending
  | usage (u : Usage)
  | exit (status : Nat)
  | crashed (c : Crash)
  deriving Inhabited

/-- Runs the command in a working directory. -/
def run [Source.CharacterNames] (env : Environment) (args : List String) (w : Files.Workspace) : Ending × Session :=
  let start : Session := { workspace := w }
  match Arguments.parse args with
  | .error u => (.usage u, start)
  | .ok args =>
    match job env args with
    | .error f => (.exit 1, { start with stdout := ["Error: " ++ f.message?.getD ""] })
    | .ok job =>
      match perform job start with
      | .ok status s => (.exit status, s)
      | .error c s => (.crashed c, s)

end ProtoBind.Command
