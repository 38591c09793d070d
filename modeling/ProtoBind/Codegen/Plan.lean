/-
The plan of a run: which declarations go to which module, and where the
modules go.

Every schema file becomes one module. With indexes, every package also
becomes a module that exports what the package contains.
-/
import ProtoBind.Codegen.Fault
import ProtoBind.Codegen.Options

namespace ProtoBind.Codegen

open Schema (Graph Node Kind)

/-- The outermost declarations of one schema file and where they go. -/
structure FileGroup where
  file : String
  module : String
  path : String
  nodes : List Node
  deriving Repr, Inhabited

/-- The order of declarations in a module. -/
def kindOrder : List Kind := [.enum, .message, .service, .field]

namespace FileGroup

/-- The declarations, by kind and then in order of declaration. -/
def ordered (g : FileGroup) : List Node := kindOrder.flatMap fun k => g.nodes.filter (·.kind == k)

def shown (g : FileGroup) : String :=
  "FileGroup(" ++ Text.quoted g.file ++ " -> " ++ Text.quoted g.path ++
    s!", {g.nodes.length} nodes)"

end FileGroup

/-- A package and where its index goes. -/
structure IndexPlan where
  package : Node
  module : String
  path : String
  deriving Repr, Inhabited

def IndexPlan.shown (p : IndexPlan) : String :=
  "IndexPlan(" ++ Text.quoted p.package.fullName ++ " -> " ++ Text.quoted p.path ++ ")"

/-! ## Paths and module names -/

/-- A file name without its extension: without its last dot and what follows, unless only dots
stand before that dot. -/
def stem (name : List Char) : List Char :=
  let back := name.reverse
  match back.dropWhile (· != '.') with
  | [] => name
  | _ :: before => if before.all (· == '.') then name else before.reverse

/-- The last piece changed by a function. -/
def onLast {α : Type} (f : α → α) : List α → List α
  | [] => []
  | [a] => [f a]
  | a :: rest => a :: onLast f rest

/-- The parts of a file name without its extension. -/
def fileParts (file : String) : List String :=
  let slashed := file.toList.map fun c => if c == '\\' then '/' else c
  ((onLast stem (Text.splitAtChar '/' slashed)).filter (!·.isEmpty)).map String.ofList

namespace Options

def components (o : Options) (parts : List String) : List String := parts.map o.naming.component

def fileComponents (o : Options) (file : String) : List String := o.components (fileParts file)

def packageComponents (o : Options) (package : Node) : List String :=
  if package.fullName.isEmpty then [] else o.components (Text.splitOnChar '.' package.fullName)

def moduleForFile (o : Options) (file : String) : String :=
  o.qualified (Text.join "." (o.fileComponents file))

def pathForFile (o : Options) (file : String) : String :=
  Text.join "/" (o.fileComponents file) ++ ".py"

def moduleForPackage (o : Options) (package : Node) : String :=
  o.qualified (Text.join "." (o.packageComponents package))

/-- The last part of a package's module name. -/
def lastComponent (o : Options) (package : Node) : String :=
  (o.packageComponents package).getLastD ""

def pathForPackage (o : Options) (package : Node) : String :=
  Text.join "/" (o.packageComponents package ++ ["__init__.py"])

end Options

/-! ## Groups -/

/-- The declarations that stand in packages, in the order of the walk. -/
def declarations (g : Graph) : List Node :=
  g.packages.flatMap fun p => (g.childrenOf p).filter (·.kind != .package)

/-- What is wrong with a declaration that stands in a package. -/
def declarationFault? (g : Graph) (n : Node) : Option PlanFault :=
  if !kindOrder.contains n.kind then some (.misplaced n.kind n.fullName)
  else match n.file with
    | some f => if g.files.contains f then none else some (.unknownFile n.fullName n.file)
    | none => some (.unknownFile n.fullName none)

/-- The groups of the files that declare something, in the order of the files. -/
def groups (g : Graph) (o : Options) : List FileGroup :=
  (g.files.map fun f =>
    { file := f, module := o.moduleForFile f, path := o.pathForFile f
      nodes := (declarations g).filter (·.file == some f) : FileGroup }).filter (!·.nodes.isEmpty)

/-! ## Collisions -/

/-- Two groups have one path, or one has the path of the reflection module. `seen` are the paths
before, with their files. -/
def pathCollision? : (seen : List (String × String)) → List FileGroup → Option PlanFault
  | _, [] => none
  | seen, g :: rest =>
    if g.path == Options.reflectionFile then
      some (.collision g.path g.file "the reflection module")
    else match seen.lookup g.path with
      | some previous => some (.collision g.path previous g.file)
      | none => pathCollision? (seen ++ [(g.path, g.file)]) rest

/-- The packages around a module: the proper beginnings of its name. -/
def enclosing (module : String) : List String :=
  let parts := Text.splitOnChar '.' module
  (List.range (parts.length - 1)).map fun i => Text.join "." (parts.take (i + 1))

/-- The packages that the output has, each with what it is there for. -/
def outputPackages (g : Graph) (o : Options) (groups : List FileGroup) : List (String × String) :=
  groups.flatMap (fun group => (enclosing group.module).map fun p => (p, group.file)) ++
    if o.emitIndex then
      (g.packages.filter (!·.fullName.isEmpty)).map fun p =>
        (o.moduleForPackage p, "package " ++ p.fullName)
    else []

/-- A module is also the package of another. -/
def packageCollision? (packages : List (String × String)) (groups : List FileGroup) :
    Option PlanFault :=
  groups.findSome? fun group =>
    (packages.lookup group.module).map fun owner => .collision group.path group.file owner

/-- The groups of a graph, if its declarations have places that do not collide. -/
def plan (g : Graph) (o : Options) : Except PlanFault (List FileGroup) :=
  match (declarations g).findSome? (declarationFault? g) with
  | some fault => .error fault
  | none =>
    let planned := groups g o
    match pathCollision? [] planned with
    | some fault => .error fault
    | none =>
      match packageCollision? (outputPackages g o planned) planned with
      | some fault => .error fault
      | none => .ok planned

/-- The index of every package, that of the root only when the output is a package. -/
def planIndexes (g : Graph) (o : Options) : List IndexPlan :=
  (g.packages.filter fun p => !(p.index == 0 && o.package.isEmpty)).map fun p =>
    ⟨p, o.moduleForPackage p, o.pathForPackage p⟩

end ProtoBind.Codegen
