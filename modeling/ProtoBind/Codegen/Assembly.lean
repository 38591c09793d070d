/-
The text of a module: its first line, its imports and the code of its
declarations. The imports are those that the code uses, in the order of their
first use.
-/
import ProtoBind.Codegen.Message
import ProtoBind.Codegen.Service

namespace ProtoBind.Codegen

open Schema (Graph Node Kind)

/-- An extension as a variable of the module. -/
def extensionCode (reflection : String) (n : Node) : Code :=
  .line (Naming.identifier n.name ++ " = " ++ reflection ++ ".root.lookup(\"" ++ n.path ++ "\")")

/-- Bindings follow the declaration they belong to. -/
def withBindings (e : Emitted) : List Code :=
  .blank 2 :: e.code ++
    if e.bindings.isEmpty then [] else .blank 2 :: Code.ofLines e.bindings

/-- The code of one outermost declaration; `previous` is the kind of the one before. -/
def emitDeclaration (s : Site) (o : Options) (previous : Option Kind) (n : Node) :
    Emit (List Code) := do
  match n.body with
  | .enum _ => return withBindings (← emitEnum s o n)
  | .message _ _ => return withBindings (← emitMessage s o s.graph.nodes.length 2 n)
  | .service => return .blank 2 :: (← emitService s o n)
  | .field f =>
    match f.type.leaf with
    | .reference r => discard (s.targetOf n r)
    | .scalar _ => pure ()
    let reflection ← Emit.reflectionAlias o
    return (if previous == some .field then [] else [.blank 2]) ++ [extensionCode reflection n]
  | _ => throw (.cannotEmit n.kind n.fullName)

/-- The code of declarations in order. -/
def emitDeclarations (s : Site) (o : Options) : Option Kind → List Node → Emit (List Code)
  | _, [] => return []
  | previous, n :: rest => do
    let code ← emitDeclaration s o previous n
    return code ++ (← emitDeclarations s o (some n.kind) rest)

/-- What stands before the code of a module. -/
def prologue (file : String) (imports : ImportTable) : List Code :=
  [.line (header file), .line "from __future__ import annotations", .blank 1] ++
    Code.ofLines imports.statements ++ [.blank 2]

/-- The text of lines, with one line feed at its end. -/
def moduleText (lines : List String) : String :=
  String.ofList (Text.trimEnd (· == '\n') (Text.join "\n" lines).toList) ++ "\n"

/-- The text of the module of a schema file. -/
def emitModule (s : Site) (o : Options) (group : FileGroup) : Emit String := do
  let body ← emitDeclarations s o none group.ordered
  let draft ← get
  if draft.unresolved.isEmpty then
    return moduleText (Code.lines (prologue group.file draft.imports) ++ Code.lines body)
  else throw (.unresolved group.file draft.unresolved)

/-- The result of assembling a module, with the imports that were made on the way. -/
def assembleWithImports (g : Graph) (o : Options) (group : FileGroup) :
    Except AssemblyFault String × List Import :=
  match emitModule ⟨g, group.file, o.moduleForFile⟩ o group (Draft.empty o.maxSuffix) with
  | .ok text draft => (.ok text, draft.imports.entries)
  | .error e draft => (.error e, draft.imports.entries)

/-- Assembles the module of a schema file. -/
def assemble (g : Graph) (o : Options) (group : FileGroup) : Except AssemblyFault String :=
  (assembleWithImports g o group).1

end ProtoBind.Codegen
