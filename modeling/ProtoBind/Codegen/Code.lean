/-
Source code as a tree of lines and indented blocks, and how it is laid out.
-/
namespace ProtoBind.Codegen

/-- A piece of source code. -/
inductive Code
  | line (text : String)
  /-- At least so many blank lines before what follows, except at the beginning. -/
  | blank (count : Int)
  /-- Code one level further in. -/
  | block (body : List Code)
  deriving Repr, Inhabited

namespace Code

def ofLines (lines : List String) : List Code := lines.map line

/-- The number of blank lines at the end. -/
def trailing (lines : List String) : Nat := (lines.reverse.takeWhile String.isEmpty).length

/-- Lines with blank lines at the end; there are never more than wanted, and none at the
beginning. -/
def addBlank (count : Int) (lines : List String) : List String :=
  if lines.isEmpty then lines
  else lines ++ List.replicate (count - trailing lines).toNat ""

/-- A line at a level; a blank line has no indentation. -/
def indented (indent : String) (level : Nat) (text : String) : String :=
  if text.isEmpty then "" else String.join (List.replicate level indent) ++ text

mutual

/-- The lines after a piece of code was laid out behind them. -/
def layout (indent : String) (level : Nat) (lines : List String) : Code → List String
  | line text => lines ++ [indented indent level text]
  | blank count => addBlank count lines
  | block body => layoutAll indent (level + 1) lines body

def layoutAll (indent : String) (level : Nat) (lines : List String) : List Code → List String
  | [] => lines
  | c :: rest => layoutAll indent level (layout indent level lines c) rest

end

/-- Four blanks for each level. -/
def indentation : String := "    "

/-- The lines of a sequence of pieces. -/
def lines (body : List Code) : List String := layoutAll indentation 0 [] body

/-- Lines as a text that ends with one line feed. -/
def textOf (lines : List String) : String :=
  String.intercalate "\n" (lines.reverse.dropWhile String.isEmpty).reverse ++ "\n"

def text (body : List Code) : String := textOf (lines body)

end Code
end ProtoBind.Codegen
