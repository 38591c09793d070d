/-
Names of generated modules.

A part of a file or package name becomes a part of a module name: characters
that cannot stand in a name become underscores, and the convention decides
about upper case.
-/
import ProtoBind.Naming

namespace ProtoBind.Codegen

/-- ASCII letters, digits and the underscore. -/
def isWord (c : Char) : Bool := c.isAlphanum || c == '_'

/-- An underscore inside a run of upper case before its last letter, when lower case follows
the run. -/
def breakAcronyms : List Char → List Char
  | p :: c :: n :: rest =>
    if p.isUpper && c.isUpper && n.isLower then p :: '_' :: breakAcronyms (c :: n :: rest)
    else p :: breakAcronyms (c :: n :: rest)
  | s => s

/-- An underscore between lower case or a digit and the upper case that follows. -/
def breakHumps : List Char → List Char
  | p :: c :: rest =>
    if (p.isLower || p.isDigit) && c.isUpper then p :: '_' :: breakHumps (c :: rest)
    else p :: breakHumps (c :: rest)
  | s => s

/-- Underscores for all that cannot stand in a name. -/
def replaceOthers (s : List Char) : List Char := s.map fun c => if isWord c then c else '_'

def snakeChars (s : List Char) : List Char :=
  (replaceOthers (breakHumps (breakAcronyms s))).map Char.toLower

/-- The name in lower case with underscores between its words. -/
def snakeCase (name : String) : String := String.ofList (snakeChars name.toList)

/-- How upper case in file and package names is treated. -/
inductive Convention
  | snakeCase | lower | preserve
  deriving DecidableEq, Repr, Inhabited

namespace Convention

def all : List Convention := [snakeCase, lower, preserve]

def name : Convention → String
  | snakeCase => "snake_case"
  | lower => "lower"
  | preserve => "preserve"

def ofName? (s : String) : Option Convention := all.find? (·.name == s)

def unknown (s : String) : String := "Unknown module naming convention: " ++ s

/-- The characters of a part, without regard to what a name may begin with. -/
def chars : Convention → List Char → List Char
  | snakeCase, s => snakeChars s
  | lower, s => (replaceOthers s).map Char.toLower
  | preserve, s => replaceOthers s

/-- A name begins with no digit and is not empty. -/
def leading : List Char → List Char
  | [] => ['_']
  | c :: rest => if c.isDigit then '_' :: c :: rest else c :: rest

/-- The part of a module name for a part of a file or package name. -/
def component (c : Convention) (part : String) : String :=
  Naming.identifier (String.ofList (leading (c.chars part.toList)))

end Convention
end ProtoBind.Codegen
