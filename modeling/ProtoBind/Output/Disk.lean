/-
A tree of text files and directories.

Files are found by their path from the top. A directory is there when it was
made or when a file lies below it. A file is written by way of a temporary
file beside it, which takes its place when it is whole; a write that fails
removes the temporary file again. Modes of files are not kept.
-/
import ProtoBind.Value

namespace ProtoBind.Output

/-- The parts of a path from the top. -/
abbrev Path := List String

structure Disk where
  files : List (Path × String)
  /-- Directories that were made, whether files lie below them or not. -/
  directories : List Path := []
  deriving DecidableEq, Repr, Inhabited

/-- Why an operation on a disk fails. -/
inductive DiskFault
  /-- A file stands where a directory is needed. -/
  | notDirectory
  /-- A directory stands where a file is needed. -/
  | isDirectory
  /-- There is no such file or directory. -/
  | missing
  /-- Every name that was tried is taken. -/
  | taken
  deriving DecidableEq, Repr, Inhabited

/-- An operation on a disk. What it did before it failed stays done. -/
abbrev DiskOp := EStateM DiskFault Disk

namespace Disk

def empty : Disk := { files := [] }

/-- The text of a file. -/
def get? (d : Disk) (p : Path) : Option String := d.files.lookup p

/-- `p` lies below `q`. -/
def isBelow (p q : Path) : Bool := q.isPrefixOf p && q.length < p.length

def isDirectory (d : Disk) (p : Path) : Bool :=
  p.isEmpty || d.directories.any p.isPrefixOf || d.files.any fun f => isBelow f.1 p

/-- A file stands where a path needs a directory. -/
def isBlocked (d : Disk) (p : Path) : Bool := d.files.any fun f => isBelow p f.1

/-- Puts a file at a path, whatever was there. -/
def put (d : Disk) (p : Path) (text : String) : Disk :=
  { d with files := Entries.put (· == ·) p text d.files }

/-- Takes the file at a path away, if there is one. -/
def erase (d : Disk) (p : Path) : Disk := { d with files := Entries.erase (· == ·) p d.files }

/-- Puts a directory at a path, unless there is one. -/
def addDirectory (d : Disk) (p : Path) : Disk :=
  if d.isDirectory p then d else { d with directories := d.directories ++ [p] }

/-! ## Operations -/

/-- Makes a directory, and those it lies in, unless they are there. -/
def makeDirectories (p : Path) : DiskOp Unit := do
  let d ← get
  if (d.get? p).isSome || d.isBlocked p then throw .notDirectory
  set (d.addDirectory p)

/-- The path of a temporary file. -/
def temporary (directory : Path) (k : Nat) : Path := directory ++ [".pw-" ++ intText k ++ ".tmp"]

def isTaken (d : Disk) (p : Path) : Bool := (d.get? p).isSome || d.isDirectory p

/-- The path of the first temporary file that is not there; there are more names than files and
directories. -/
def freshTemporary? (d : Disk) (directory : Path) : Option Path :=
  ((List.range (d.files.length + d.directories.length + 1)).map (temporary directory)).find?
    fun p => !d.isTaken p

/-- Makes an empty temporary file in a directory, under a name that is not taken. -/
def createTemporary (directory : Path) : DiskOp Path := do
  let d ← get
  if !d.isDirectory directory then throw .missing
  match d.freshTemporary? directory with
  | none => throw .taken
  | some p => do
    set (d.put p "")
    return p

/-- Writes the text of a file that is there. -/
def fill (p : Path) (text : String) : DiskOp Unit := do
  let d ← get
  if (d.get? p).isNone then throw .missing
  set (d.put p text)

/-- Moves a file to a path, in place of the file that is there. -/
def replace (source p : Path) : DiskOp Unit := do
  let d ← get
  match d.get? source with
  | none => throw .missing
  | some text =>
    if d.isDirectory p then throw .isDirectory
    if d.isBlocked p then throw .notDirectory
    set ((d.erase source).put p text)

def remove (p : Path) : DiskOp Unit := do
  let d ← get
  if (d.get? p).isNone then throw .missing
  set (d.erase p)

/-- Removes a temporary file unless it is gone. -/
def discard (p : Path) : DiskOp Unit :=
  tryCatch (remove p) fun
    | .missing => return
    | f => throw f

/-- Writes a file so that at every moment its path has the old text or the whole new one. -/
def writeFile (p : Path) (text : String) : DiskOp Unit := do
  makeDirectories p.dropLast
  let t ← createTemporary p.dropLast
  tryCatch (do fill t text; replace t p) fun f => do
    discard t
    throw f

/-- The disk with files at slash-separated names. -/
def ofFiles (files : List (String × String)) : Disk :=
  files.foldl (fun d (name, text) => d.put ((Text.splitOnChar '/' name).filter (!·.isEmpty)) text)
    empty

end Disk
end ProtoBind.Output
