/-
A working directory on a disk of files, and how names of files are read
there.

A name is read part by part from the working directory, or from the top if it
begins with a slash. Every part but the last has to be a directory, also when
the next part leads back out of it.
-/
import ProtoBind.Output.Disk

namespace ProtoBind.Files

open Output (Disk Path)

structure Workspace where
  disk : Disk
  /-- The working directory. -/
  here : Path
  deriving Repr, Inhabited

/-- The parts of a name, the empty one included. -/
def parts (name : String) : List String := Text.splitOnChar '/' name

def isRooted (name : String) : Bool := Text.startsWith name "/"

/-- A name below another; a rooted name stands for itself. -/
def below (base name : String) : String :=
  if isRooted name || base.isEmpty then name
  else if base.toList.getLast? = some '/' then base ++ name
  else base ++ "/" ++ name

/-- Follows one part of a name, without regard to what is there. -/
def follow (p : Path) (part : String) : Path :=
  if part == "" || part == "." then p
  else if part == ".." then p.dropLast
  else p ++ [part]

/-- The name of a path from the top. -/
def rootedName (p : Path) : String := "/" ++ Text.join "/" p

namespace Workspace

/-- Where reading a name starts. -/
def start (w : Workspace) (name : String) : Path := if isRooted name then [] else w.here

/-- The path that a name means by itself, whatever files there are. -/
def absolute (w : Workspace) (name : String) : Path := (parts name).foldl follow (w.start name)

/-- The working directory and those around it are there without files too. -/
def isDirectory (w : Workspace) (p : Path) : Bool :=
  p.isPrefixOf w.here || w.disk.isDirectory p

/-- Goes from a directory along the parts of a name. -/
def walk (w : Workspace) : Path → List String → Option Path
  | p, [] => some p
  | p, part :: rest => if w.isDirectory p then w.walk (follow p part) rest else none

/-- The text of the file with a name, with one kind of line end. -/
def read? (w : Workspace) (name : String) : Option String :=
  match w.walk (w.start name) (parts name) with
  | none => none
  | some p => (w.disk.get? p).map fun text => String.ofList (Text.normalizeNewlines text.toList)

/-- The file with a name in the first directory that has it. -/
def find? (w : Workspace) (directories : List String) (name : String) : Option String :=
  directories.findSome? fun d => w.read? (below d name)

end Workspace
end ProtoBind.Files
