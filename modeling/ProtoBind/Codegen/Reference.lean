/-
References in generated code.

A declaration of the same schema file is referred to by the path of the
messages around it, one of another file through the alias of that file's
module. A reference without a target is noted, and the module is not written.
-/
import ProtoBind.Codegen.Fault
import ProtoBind.Codegen.Plan

namespace ProtoBind.Codegen

open Schema (Graph Node Reference)

/-- Where code is generated: the graph, the schema file, and the modules of other files. -/
structure Site where
  graph : Graph
  file : String
  moduleFor : String → String

/-- What has been used so far in a module. -/
structure Draft where
  imports : ImportTable
  unresolved : List Unresolved
  deriving Inhabited

def Draft.empty (maxSuffix : Int) : Draft := ⟨.empty maxSuffix, []⟩

/-- A computation that writes code of a module. -/
abbrev Emit := EStateM AssemblyFault Draft

namespace Emit

def importWith (f : ImportTable → Except AliasCollision (String × ImportTable)) : Emit String := do
  match f (← get).imports with
  | .ok (name, imports) =>
    modify fun d => { d with imports := imports }
    return name
  | .error c => throw (.aliasTaken c)

/-- The alias of a module. -/
def moduleAlias (module : String) (short : String) : Emit String :=
  importWith fun t => t.useModule module short

def typingAlias : Emit String := moduleAlias "typing" ""

def enumAlias : Emit String := moduleAlias "enum" ""

def runtimeAlias (o : Options) : Emit String := moduleAlias o.runtime "runtime"

def reflectionAlias (o : Options) : Emit String := moduleAlias o.reflectionModule "reflection"

end Emit

/-- The class of a declaration. -/
def className (n : Node) : String := Naming.identifier n.name

/-- The dictionary type beside the class of a message. -/
def shapeName (n : Node) : String :=
  if n.kind = .message then Naming.identifier ("I" ++ n.name) else className n

/-- The classes of the messages around a node, the outermost first. -/
def outerClasses (g : Graph) : (fuel : Nat) → Node → List String
  | 0, _ => []
  | fuel + 1, n =>
    match g.parentOf n with
    | none => []
    | some p => if p.kind = .message then outerClasses g fuel p ++ [className p] else []

/-- The path of a declaration inside its module, ending in the given class name. -/
def pathTo (g : Graph) (n : Node) (last : String) : String :=
  Text.join "." (outerClasses g g.nodes.length n ++ [last])

def localPath (g : Graph) (n : Node) : String := pathTo g n (className n)

def localShapePath (g : Graph) (n : Node) : String := pathTo g n (shapeName n)

namespace Site

/-- The expression for a path inside the module that declares `target`. -/
def expression (s : Site) (target : Node) (path : String) : Emit String :=
  if target.file = some s.file then return path
  else match target.file with
    | none => throw .noFile
    | some f => do
      let name ← Emit.importWith fun t => t.useFile f (s.moduleFor f)
      return name ++ "." ++ path

/-- The expression for the class of a declaration. -/
def classRef (s : Site) (target : Node) : Emit String := s.expression target (localPath s.graph target)

/-- The expression for the dictionary type of a message. -/
def shapeRef (s : Site) (target : Node) : Emit String :=
  s.expression target (localShapePath s.graph target)

/-- The node that a reference means; a reference without one is noted. -/
def targetOf (s : Site) (referencing : Node) (r : Reference) : Emit (Option Node) := do
  match r.target with
  | some i => return s.graph.node? i
  | none =>
    modify fun d => { d with unresolved := d.unresolved ++ [⟨referencing.fullName, r.name⟩] }
    return none

end Site

/-- Stands for a type that could not be resolved. -/
def placeholder : String := "_typing.Any"

end ProtoBind.Codegen
