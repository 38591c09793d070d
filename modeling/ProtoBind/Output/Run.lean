/-
A run of the generator: the reflection document and the module that loads it,
then one module for each schema file and, with indexes, one for each package.

A file that cannot be assembled or written is reported and the others are
still written, unless the first failure is to end the run.
-/
import ProtoBind.Codegen.Assembly
import ProtoBind.Codegen.Index
import ProtoBind.Output.Disk
import ProtoBind.Reflection.Description

namespace ProtoBind.Output

open Schema (Graph)
open Codegen (Options FileGroup IndexPlan AssemblyFault PlanFault AliasCollision)

/-- A file to be written, with its text or the reason why there is none. -/
structure Task where
  path : String
  text : Except AssemblyFault String

/-- Why a file was not written. -/
inductive FileFault
  | assembly (fault : AssemblyFault)
  | unwritable (path : String)
  deriving DecidableEq, Repr, Inhabited

def FileFault.message : FileFault → String
  | assembly f => f.message?.getD ""
  | unwritable path => "Failed to write '" ++ path ++ "'"

/-- Why a run did not write all its files. -/
inductive RunFault
  | badDefault (fault : ValueFault)
  | plan (fault : PlanFault)
  | metadata (fault : Reflection.DescribeFault)
  | aliasTaken (collision : AliasCollision)
  | unwritable (path : String)
  /-- A module could not be assembled for a reason that ends the run. -/
  | assembly (fault : AssemblyFault)
  /-- Files failed; the others were written. -/
  | failed (failures : List (String × FileFault)) (written : List String)
  deriving Repr, Inhabited

/-- The wording of a fault; some have none of their own. -/
def RunFault.message? : RunFault → Option String
  | plan f => some f.message
  | metadata (.misfit m) => some m.message
  | metadata .invalid => some "Invalid reflection metadata"
  | aliasTaken c => some c.message
  | unwritable path => some (FileFault.unwritable path).message
  | failed failures _ =>
    some (s!"Generation failed for {failures.length} file(s): " ++
      Text.join ", " (failures.map (·.1)))
  | badDefault _ | metadata .unwritable | assembly _ => none

/-- How far a run has come. -/
structure Progress where
  disk : Disk
  written : List String
  failures : List (String × FileFault)
  log : List String
  deriving Inhabited

namespace Progress

def report (p : Progress) (o : Options) (line : String) : Progress :=
  if o.verbose then { p with log := p.log ++ ["[PWGEN DEBUG] " ++ line] } else p

def wrote (p : Progress) (path : String) : Progress := { p with written := p.written ++ [path] }

def failedAt (p : Progress) (o : Options) (path : String) (f : FileFault) : Progress :=
  { p with failures := p.failures ++ [(path, f)] }.report o ("Failed " ++ path ++ ": " ++ f.message)

def fault (p : Progress) : RunFault := .failed p.failures p.written

end Progress

/-- Where the output goes: the name of its directory and the directory's place on the disk. -/
structure Target where
  name : String
  place : Path
  deriving Repr, Inhabited

def Target.at (t : Target) (path : String) : Path := t.place ++ Text.splitOnChar '/' path

/-- The path of a file as its name is written below the name of the directory. -/
def Target.nameOf (t : Target) (path : String) : String :=
  if t.name.isEmpty then path
  else if t.name.toList.getLast? = some '/' then t.name ++ path
  else t.name ++ "/" ++ path

/-- The end of a task: nothing, a fault of its file, or a fault that ends the run. -/
inductive Outcome
  | written
  | failed (fault : FileFault)
  | ended (fault : AssemblyFault)
  deriving DecidableEq, Repr, Inhabited

/-- Does a task on a disk. -/
def Task.perform (t : Target) (task : Task) (d : Disk) : Disk × Outcome :=
  match task.text with
  | .error f => (d, if f.message?.isSome then .failed (.assembly f) else .ended f)
  | .ok text =>
    match Disk.writeFile (t.at task.path) text d with
    | .ok _ d => (d, .written)
    | .error _ d => (d, .failed (.unwritable (t.nameOf task.path)))

/-- Does tasks one after the other. -/
def runInOrder (t : Target) (o : Options) : List Task → Progress → Progress × Option RunFault
  | [], p => (p, if p.failures.isEmpty then none else some p.fault)
  | task :: rest, p =>
    let (disk, outcome) := task.perform t p.disk
    let p := { p with disk := disk }
    match outcome with
    | .written => runInOrder t o rest ((p.wrote task.path).report o ("Wrote " ++ task.path))
    | .ended f => (p, some (.assembly f))
    | .failed f =>
      let p := p.failedAt o task.path f
      if o.failFast then (p, some p.fault) else runInOrder t o rest p

/-- Does the tasks at the given places of the list in the given order, and notes the outcome of
each place. -/
def performAll (t : Target) (tasks : List Task) (order : List Nat) (d : Disk) :
    Disk × List (Nat × Outcome) :=
  order.foldl (fun (d, outcomes) i =>
    match tasks[i]? with
    | none => (d, outcomes)
    | some task =>
      let (d, outcome) := task.perform t d
      (d, outcomes ++ [(i, outcome)])) (d, [])

/-- Goes through the outcomes of tasks that were done in any order. -/
def collect (o : Options) : List (Task × Outcome) → Progress → Progress × Option RunFault
  | [], p => (p, if p.failures.isEmpty then none else some p.fault)
  | (task, outcome) :: rest, p =>
    match outcome with
    | .written => collect o rest (p.wrote task.path)
    | .ended f => (p, some (.assembly f))
    | .failed f =>
      let p := p.failedAt o task.path f
      if o.failFast then (p, some p.fault) else collect o rest p

/-- Does tasks side by side: in any order, and reports on them in the order of the list. -/
def runPool (t : Target) (o : Options) (order : List Nat) (tasks : List Task) (p : Progress) :
    Progress × Option RunFault :=
  let (disk, outcomes) := performAll t tasks order p.disk
  let done := tasks.zipIdx.filterMap fun (task, i) => (outcomes.lookup i).map fun r => (task, r)
  collect o done { p with disk := disk }

/-- The modules and then the indexes. -/
def tasks (g : Graph) (o : Options) (groups : List FileGroup) (indexes : List IndexPlan) :
    List Task :=
  groups.map (fun group => ⟨group.path, Codegen.assemble g o group⟩) ++
    indexes.map fun plan => ⟨plan.path, Codegen.assembleIndex g o plan⟩

/-- The result of a run. -/
structure Run where
  disk : Disk
  log : List String
  result : Except RunFault (List String)
  deriving Inhabited

def Run.ofProgress (p : Progress) : Option RunFault → Run
  | some f => ⟨p.disk, p.log, .error f⟩
  | none => ⟨p.disk, p.log, .ok p.written⟩

/-- Writes one of the two files that all modules need. -/
def writeShared (t : Target) (path text : String) (p : Progress) : Progress × Option RunFault :=
  match Disk.writeFile (t.at path) text p.disk with
  | .ok _ d => ({ p with disk := d }.wrote path, none)
  | .error _ d => ({ p with disk := d }, some (.unwritable (t.nameOf path)))

/-- Generates the modules of a resolved graph; `run` does the tasks once the files that all
modules need are written. -/
def generateWith (run : List Task → Progress → Progress × Option RunFault) (t : Target) (g : Graph)
    (o : Options) (d : Disk) : Run :=
  let start : Progress := ⟨d, [], [], []⟩
  match Codegen.plan g o with
  | .error f => ⟨d, [], .error (.plan f)⟩
  | .ok groups =>
    let indexes := if o.emitIndex then Codegen.planIndexes g o else []
    let p := start.report o (s!"Planned {groups.length} module(s) and {indexes.length} index " ++
      "file(s) under " ++ t.name)
    match Reflection.describe g o.validate with
    | .error f => .ofProgress p (some (.metadata f))
    | .ok document =>
      match writeShared t Options.documentFile document p with
      | (p, some f) => .ofProgress p (some f)
      | (p, none) =>
        match o.reflectionSource with
        | .error c => .ofProgress p (some (.aliasTaken c))
        | .ok source =>
          match writeShared t Options.reflectionFile source p with
          | (p, some f) => .ofProgress p (some f)
          | (p, none) =>
            let (p, fault) := run (tasks g o groups indexes) p
            .ofProgress p fault

/-- Does tasks in order, or side by side when there are several jobs. -/
def runTasks (t : Target) (o : Options) (tasks : List Task) (p : Progress) :
    Progress × Option RunFault :=
  if o.jobs > 1 then runPool t o (List.range tasks.length) tasks p else runInOrder t o tasks p

/-- Generates the modules of a resolved graph. -/
def generateResolved (t : Target) (g : Graph) (o : Options) (d : Disk) : Run :=
  generateWith (runTasks t o) t g o d

/-- Generates the modules of a graph, which is resolved first if it is not. -/
def generate (t : Target) (g : Graph) (o : Options) (d : Disk) : Graph × Run :=
  if g.finalized then (g, generateResolved t g o d)
  else match g.finalize with
    | (g, .error f) => (g, ⟨d, [], .error (.badDefault f)⟩)
    | (g, .ok _) => (g, generateResolved t g o d)

end ProtoBind.Output
