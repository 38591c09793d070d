/-
Options of the generator.
-/
import ProtoBind.Codegen.Code
import ProtoBind.Codegen.Doc
import ProtoBind.Codegen.Imports
import ProtoBind.Codegen.Name

namespace ProtoBind.Codegen

/-- Options as they are asked for. -/
structure Settings where
  naming : String := "snake_case"
  emitIndex : Bool := false
  /-- The dotted package that the output directory is imported as. -/
  package : String := ""
  runtime : String := "wrangler_runtime"
  failFast : Bool := false
  jobs : Int := 1
  validate : Bool := true
  maxSuffix : Int := 99
  verbose : Bool := false
  deriving Repr, Inhabited

/-- Options that the generator accepts. -/
structure Options where
  naming : Convention
  emitIndex : Bool
  package : String
  runtime : String
  failFast : Bool
  jobs : Int
  validate : Bool
  maxSuffix : Int
  verbose : Bool
  deriving Repr, Inhabited

/-- Why settings are not accepted. -/
inductive SettingsFault
  | naming (given : String)
  | jobs (given : Int)
  | maxSuffix (given : Int)
  deriving DecidableEq, Repr, Inhabited

/-- The wording of a fault; one that would show a number of too many digits has none. -/
def SettingsFault.message? : SettingsFault → Option String
  | naming given =>
    some ("module_naming_convention must be one of " ++
      Text.join ", " (Convention.all.map (·.name)) ++ ", got " ++ Text.quoted given)
  | jobs given => (numeral given).toOption.map ("jobs must be at least 1, got " ++ ·)
  | maxSuffix given => (numeral given).toOption.map ("max_alias_suffix must be at least 2, got " ++ ·)

/-- Without the dots at both ends. -/
def trimDots (s : String) : String :=
  String.ofList (Text.trimEnd (· == '.') (Text.trimStart (· == '.') s.toList))

/-- Checks settings. -/
def Settings.options (s : Settings) : Except SettingsFault Options :=
  match Convention.ofName? s.naming with
  | none => .error (.naming s.naming)
  | some naming =>
    if s.jobs < 1 then .error (.jobs s.jobs)
    else if s.maxSuffix < 2 then .error (.maxSuffix s.maxSuffix)
    else .ok { s with naming := naming, package := trimDots s.package }

namespace Options

def default : Options :=
  { naming := .snakeCase, emitIndex := false, package := "", runtime := "wrangler_runtime"
    failFast := false, jobs := 1, validate := true, maxSuffix := 99, verbose := false }

/-- The import path of a module below the output directory. -/
def qualified (o : Options) (module : String) : String :=
  if o.package.isEmpty then module
  else if module.isEmpty then o.package
  else o.package ++ "." ++ module

/-- The module that loads the reflection document. -/
def reflectionModule (o : Options) : String := o.qualified "_reflection"

def boolText (b : Bool) : String := if b then "True" else "False"

def shown (o : Options) : Except ValueFault String := do
  return "GeneratorOptions(module_naming_convention=" ++ Text.quoted o.naming.name ++
    ", emit_index=" ++ boolText o.emitIndex ++ ", module_prefix=" ++ Text.quoted o.package ++
    ", jobs=" ++ (← numeral o.jobs) ++ ")"

/-- The name of the reflection document. -/
def documentFile : String := "reflection.json"

/-- The file of the module that loads the document. -/
def reflectionFile : String := "_reflection.py"

/-- The text of the module that loads the document. -/
def reflectionSource (o : Options) : Except AliasCollision String := do
  let (os, table) ← (ImportTable.empty o.maxSuffix).useModule "os" ""
  let (runtime, table) ← table.useModule o.runtime "runtime"
  return Code.text ([.line (header "")] ++ Code.ofLines table.statements ++ [.blank 2,
    .line ("root = " ++ runtime ++ ".Root.from_json_file(" ++ os ++ ".path.join(" ++ os ++
      ".path.dirname(__file__), \"" ++ documentFile ++ "\"))")])

end Options
end ProtoBind.Codegen
