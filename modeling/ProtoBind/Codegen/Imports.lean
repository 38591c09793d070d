/-
The imports of a generated module.

Everything a module refers to gets an alias at its first use: an underscore
and the last part of the module name, with a number behind it when that alias
is taken.
-/
import ProtoBind.Value

namespace ProtoBind.Codegen

/-- What is imported: the module generated for a schema file, or any other module. -/
inductive ImportTarget
  | file (name : String)
  | module (name : String)
  deriving DecidableEq, Repr, Inhabited

def ImportTarget.shown : ImportTarget → String
  | file name => "file:" ++ name
  | module name => "module:" ++ name

structure Import where
  target : ImportTarget
  module : String
  name : String
  deriving DecidableEq, Repr, Inhabited

namespace Import

/-- The import statement. -/
def statement (i : Import) : String :=
  if i.name == i.module then "import " ++ i.module
  else "import " ++ i.module ++ " as " ++ i.name

def shown (i : Import) : String :=
  "ImportEntry(" ++ Text.quoted i.target.shown ++ ", " ++ Text.quoted i.module ++ ", " ++
    Text.quoted i.name ++ ")"

end Import

/-- No alias up to the highest number is free. -/
structure AliasCollision where
  name : String
  module : String
  maxSuffix : Int
  deriving DecidableEq, Repr, Inhabited

def AliasCollision.message (c : AliasCollision) : String :=
  "No free import alias for '" ++ c.module ++ "': '" ++ c.name ++ "' is taken up to suffix " ++
    intText c.maxSuffix

/-- The imports in the order of their first use. -/
structure ImportTable where
  maxSuffix : Int
  entries : List Import
  deriving Repr, Inhabited

namespace ImportTable

def empty (maxSuffix : Int) : ImportTable := ⟨maxSuffix, []⟩

def names (t : ImportTable) : List String := t.entries.map (·.name)

/-- The alias of a target that is imported. -/
def nameOf? (t : ImportTable) (target : ImportTarget) : Option String :=
  (t.entries.find? (·.target == target)).map (·.name)

/-- The name with a leading underscore. -/
def candidate (base : String) : String :=
  match base.toList with
  | '_' :: _ => base
  | _ => "_" ++ base

/-- The first free alias: the candidate, or the candidate with the least number from 2 up to
`maxSuffix`. One of as many numbers as there are aliases in use is free. -/
def freeAlias? (taken : List String) (maxSuffix : Int) (candidate : String) : Option String :=
  if taken.contains candidate then
    let numbered : List Nat := (List.range taken.length).map (· + 2)
    (numbered.find? fun (k : Nat) => decide ((k : Int) ≤ maxSuffix) &&
      !taken.contains (candidate ++ intText k)).map fun (k : Nat) => candidate ++ intText k
  else some candidate

/-- Imports a target: its alias, and the table with it. -/
def use (t : ImportTable) (target : ImportTarget) (module base : String) :
    Except AliasCollision (String × ImportTable) :=
  match t.nameOf? target with
  | some name => .ok (name, t)
  | none =>
    match freeAlias? t.names t.maxSuffix (candidate base) with
    | some name => .ok (name, { t with entries := t.entries ++ [⟨target, module, name⟩] })
    | none => .error ⟨candidate base, module, t.maxSuffix⟩

/-- The part of a module name behind its last dot. -/
def baseName (module : String) : String :=
  String.ofList (module.toList.reverse.takeWhile (· != '.')).reverse

/-- Imports the module of a schema file. -/
def useFile (t : ImportTable) (file module : String) : Except AliasCollision (String × ImportTable) :=
  t.use (.file file) module (baseName module)

/-- Imports a module; `short` replaces the base name in the alias unless it is empty. -/
def useModule (t : ImportTable) (module : String) (short : String) :
    Except AliasCollision (String × ImportTable) :=
  t.use (.module module) module (if short.isEmpty then baseName module else short)

def hasModule (t : ImportTable) (module : String) : Bool := t.entries.any (·.module == module)

/-- The import statements in the order of first use. -/
def statements (t : ImportTable) : List String := t.entries.map Import.statement

end ImportTable
end ProtoBind.Codegen
