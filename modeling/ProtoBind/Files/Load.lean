/-
Loading schema files from a disk.

A file is named relative to the first include directory that contains it. The
directory of a file outside all of them becomes one.
-/
import ProtoBind.Files.Workspace
import ProtoBind.Schema.Loader

namespace ProtoBind.Files

open Output (Path)
open Schema (Load Graph)

/-- The name of a path below a directory, if it lies below it. -/
def nameBelow? (p directory : Path) : Option String :=
  if !directory.isEmpty && Output.Disk.isBelow p directory then
    some (Text.join "/" (p.drop directory.length))
  else none

/-- The name under which a file is loaded, and the include directories from then on. -/
def originName (w : Workspace) (includes : List String) (file : String) : String × List String :=
  let p := w.absolute file
  match includes.findSome? fun d => nameBelow? p (w.absolute d) with
  | some name => (name, includes)
  | none => (p.getLastD "", includes ++ [rootedName p.dropLast])

/-- Every file on the way to one that is loaded is named in a text on the disk or is the
first. -/
def loadFuel (w : Workspace) : Nat :=
  w.disk.files.foldl (fun n f => n + f.2.length) (w.disk.files.length + 2)

/-- Loads files in order, each with the include directories that the files before it left. -/
def loadAll [Source.CharacterNames] (w : Workspace) : (includes : List String) → List String → Load Unit
  | _, [] => return
  | includes, file :: rest => do
    let (name, includes) := originName w includes file
    Load.load (w.find? includes) (loadFuel w) name none
    loadAll w includes rest

/-- Loads files and resolves the graph. -/
def loadFiles [Source.CharacterNames] (w : Workspace) (includes files : List String) : Load Graph := do
  loadAll w includes files
  Load.finish

end ProtoBind.Files
