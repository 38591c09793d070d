/-
The class of an enum.
-/
import ProtoBind.Codegen.Reference

namespace ProtoBind.Codegen

open Schema (Node EnumValue)

/-- One value of an enum. -/
def enumValueCode (v : EnumValue) : List Code :=
  Code.ofLines (comments v.doc) ++
    [.line (Naming.enumMemberName v.name ++ " = " ++ intText v.number)]

/-- The class of an enum; `enums` is the alias of the module of enum classes. -/
def enumCode (enums : String) (n : Node) : List Code :=
  let doc := docstring n.doc
  let values := n.enumValues
  [.line ("class " ++ className n ++ "(" ++ enums ++ ".IntEnum):"),
    .block (Code.ofLines doc ++
      (if !doc.isEmpty && !values.isEmpty then [.blank 1] else []) ++
      values.flatMap enumValueCode ++
      (if doc.isEmpty && values.isEmpty then [.line "pass"] else []))]

/-- Code and the statements that follow the outermost class around it. -/
structure Emitted where
  code : List Code
  bindings : List String
  deriving Inhabited

namespace Emitted

def empty : Emitted := ⟨[], []⟩

def append (a b : Emitted) : Emitted := ⟨a.code ++ b.code, a.bindings ++ b.bindings⟩

end Emitted

/-- Binds an enum class to its descriptor. -/
def enumBinding (s : Site) (n : Node) (reflection : String) : String :=
  localPath s.graph n ++ ".reflection = " ++ reflection ++ ".root.lookup_enum(\"" ++ n.path ++ "\")"

/-- Numbers that are to be written as they are. -/
def checkNumbers (numbers : List Int) : Emit Unit :=
  match numbers.find? (!isShort ·) with
  | some n => throw (.unwritable n)
  | none => return

def emitEnum (s : Site) (o : Options) (n : Node) : Emit Emitted := do
  let enums ← Emit.enumAlias
  checkNumbers (n.enumValues.map (·.number))
  let reflection ← Emit.reflectionAlias o
  return ⟨enumCode enums n, [enumBinding s n reflection]⟩

end ProtoBind.Codegen
