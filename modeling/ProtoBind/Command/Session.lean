/-
A session: schema files are loaded and modules are generated from them, with
messages on the way.
-/
import ProtoBind.Files.Load
import ProtoBind.Output.Run

namespace ProtoBind.Command

open Files (Workspace)
open Codegen (Options)
open Output (Disk RunFault FileFault)
open Schema (Graph LoadFault)

/-- What a session is about. -/
structure Job where
  input : List String
  output : String
  includes : List String
  options : Options
  deriving Inhabited

/-- What has been loaded, what has been printed, and the disk. -/
structure Session where
  workspace : Workspace
  graph : Option Graph := none
  stdout : List String := []
  stderr : List String := []
  deriving Inhabited

/-- A fault that a session does not report but ends with. -/
inductive Crash
  | load (fault : LoadFault)
  | run (fault : RunFault)
  deriving Inhabited

/-- A step of a session: whether it succeeded. -/
abbrev Step := EStateM Crash Session

namespace Step

def print (line : String) : Step Unit := modify fun s => { s with stdout := s.stdout ++ [line] }

def printError (message : String) : Step Unit := print ("Error: " ++ message)

def log (lines : List String) : Step Unit := modify fun s => { s with stderr := s.stderr ++ lines }

end Step

/-- Loads the input files. -/
def load [Source.CharacterNames] (job : Job) : Step Bool := do
  let s ← get
  let finished (loader : Schema.Loader) : Step Unit :=
    if job.options.verbose then Step.log loader.log else pure ()
  match Files.loadFiles s.workspace job.includes job.input Schema.Loader.empty with
  | .ok g loader =>
    finished loader
    modify fun s => { s with graph := some g }
    return true
  | .error f loader =>
    finished loader
    match f.message? with
    | some m =>
      Step.printError m
      return false
    | none => throw (.load f)

/-- The lines about a file that was not written. -/
def failureLines (path : String) : FileFault → List String
  | .assembly (.unresolved _ references) => references.map fun u => path ++ ": " ++ u.message
  | f => [path ++ ": " ++ f.message]

/-- The end of a run as it is printed. -/
def reportRun (job : Job) : Except RunFault (List String) → Step Bool
  | .ok written => do
    Step.print (s!"Wrote {written.length} file(s) to " ++ job.output)
    return true
  | .error (.failed failures written) => do
    for (path, f) in failures do
      for line in failureLines path f do
        Step.printError line
    Step.print s!"Wrote {written.length} file(s), {failures.length} failed."
    return false
  | .error f =>
    match f with
    | .metadata (.misfit _) => throw (.run f)
    | _ =>
      match f.message? with
      | some m => do
        Step.printError m
        return false
      | none => throw (.run f)

/-- Generates modules from the loaded files. -/
def generate (job : Job) : Step Bool := do
  let s ← get
  match s.graph with
  | none =>
    Step.printError "No schema graph available. Load the input files first."
    return false
  | some g =>
    let target : Output.Target := ⟨job.output, s.workspace.absolute job.output⟩
    let (g, run) := Output.generate target g job.options s.workspace.disk
    modify fun s => { s with graph := some g, workspace := { s.workspace with disk := run.disk } }
    Step.log run.log
    reportRun job run.result

end ProtoBind.Command
