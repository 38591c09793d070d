/-
The index of a package: a module that exports what the package contains.
-/
import ProtoBind.Codegen.Plan

namespace ProtoBind.Codegen

open Schema (Graph Node)

/-- Names exported by an index and the module they come from. -/
structure Export where
  module : String
  names : List String
  deriving DecidableEq, Repr, Inhabited

/-- The module of the schema file that declares a node. -/
def moduleOf (o : Options) (n : Node) : Except AssemblyFault String :=
  match n.file with
  | some f => .ok (o.moduleForFile f)
  | none => .error .noFile

/-- What an index exports for one child of its package. -/
def exportOf (o : Options) (plan : IndexPlan) (n : Node) : Except AssemblyFault Export :=
  match n.kind with
  | .package => .ok ⟨plan.module, [o.lastComponent n]⟩
  | .message => do
    return ⟨← moduleOf o n, [Naming.identifier ("I" ++ n.name), Naming.identifier n.name]⟩
  | .enum | .service | .field => do return ⟨← moduleOf o n, [Naming.identifier n.name]⟩
  | .method => .error (.cannotExport n.kind n.fullName)

/-- Exports by module, in the order in which the modules first occur. -/
def byModule (exports : List Export) : List (String × List String) :=
  exports.foldl (fun acc e =>
    let names := ((acc.lookup e.module).getD []) ++ e.names
    Entries.put (· == ·) e.module names acc) []

def indexCode (reflection : String) (package : Node) (imports : List String)
    (exports : List Export) : List Code :=
  let names := exports.flatMap (·.names)
  [.line (header "")] ++ Code.ofLines imports ++
    (byModule exports).map (fun (module, names) =>
      .line ("from " ++ module ++ " import " ++ Text.join ", " names)) ++
    [.blank 2,
      .line (if package.fullName.isEmpty then "reflection = " ++ reflection ++ ".root"
        else "reflection = " ++ reflection ++ ".root.lookup(\"" ++ package.path ++ "\")"),
      .blank 2,
      .line "__all__ = [",
      .block ((names ++ ["reflection"]).map fun n => .line ("\"" ++ n ++ "\",")),
      .line "]"]

/-- The text of an index. -/
def assembleIndex (g : Graph) (o : Options) (plan : IndexPlan) : Except AssemblyFault String := do
  match (ImportTable.empty o.maxSuffix).useModule o.reflectionModule "reflection" with
  | .error c => .error (.aliasTaken c)
  | .ok (reflection, imports) =>
    let exports ← (g.childrenOf plan.package).mapM (exportOf o plan)
    return Code.text (indexCode reflection plan.package imports.statements exports)

end ProtoBind.Codegen
