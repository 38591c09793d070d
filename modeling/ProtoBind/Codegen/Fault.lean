/-
What can go wrong while modules are generated.
-/
import ProtoBind.Codegen.Imports
import ProtoBind.Schema.Loader

namespace ProtoBind.Codegen

open Schema (Kind)

/-- A reference to a type that does not exist. -/
structure Unresolved where
  referencing : String
  missing : String
  deriving DecidableEq, Repr, Inhabited

def Unresolved.message (u : Unresolved) : String :=
  "'" ++ u.referencing ++ "' references unknown type '" ++ u.missing ++ "'"

/-- Why the text of one module could not be assembled. -/
inductive AssemblyFault
  /-- Every unresolved reference of the module. -/
  | unresolved (file : String) (references : List Unresolved)
  | aliasTaken (collision : AliasCollision)
  | cannotEmit (kind : Kind) (fullName : String)
  | cannotExport (kind : Kind) (fullName : String)
  /-- A map has keys of a type that is no scalar kind. -/
  | badKey (type : String)
  /-- A number of too many digits was to become part of the text. -/
  | unwritable (number : Int)
  /-- A declaration of no file is referred to. -/
  | noFile
  deriving DecidableEq, Repr, Inhabited

/-- The wording of a fault that is reported for its file; the other faults end a whole run. -/
def AssemblyFault.message? : AssemblyFault → Option String
  | unresolved file references =>
    some (file ++ s!": {references.length} error(s): " ++
      Text.join "; " (references.map Unresolved.message))
  | aliasTaken c => some c.message
  | cannotEmit kind name => some ("Cannot emit " ++ kind.name ++ " '" ++ name ++ "'")
  | cannotExport kind name => some ("Cannot export " ++ kind.name ++ " '" ++ name ++ "'")
  | badKey _ | unwritable _ | noFile => none

/-- Why declarations could not be distributed over files. -/
inductive PlanFault
  | misplaced (kind : Kind) (fullName : String)
  | unknownFile (fullName : String) (file : Option String)
  /-- Two things have one output path. -/
  | collision (path first second : String)
  deriving DecidableEq, Repr, Inhabited

def PlanFault.message : PlanFault → String
  | misplaced kind name => "Unexpected " ++ kind.name ++ " '" ++ name ++ "' at namespace level"
  | unknownFile name file =>
    "'" ++ name ++ "' comes from unknown file " ++ Schema.fileText file
  | collision path first second =>
    "'" ++ first ++ "' and '" ++ second ++ "' both map to output '" ++ path ++ "'"

end ProtoBind.Codegen
