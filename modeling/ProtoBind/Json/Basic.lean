/-
JSON documents. Numbers keep whether they were written as integers; objects
keep the order of their keys.
-/
import ProtoBind.Value

namespace ProtoBind

inductive Json
  | null
  | bool (b : Bool)
  | int (n : Int)
  | float (x : Binary64)
  | string (s : String)
  | array (items : List Json)
  | object (entries : List (String × Json))
  deriving Repr, Inhabited

namespace Json

/-- The value at a key of an object. -/
def get? (j : Json) (key : String) : Option Json :=
  match j with
  | object entries => entries.lookup key
  | _ => none

mutual

/-- A document as a dynamic value. -/
def toValue : Json → Value
  | null => .null
  | bool b => .bool b
  | int n => .int n
  | float x => .float x
  | string s => .text s
  | array items => .list (toValues items)
  | object entries => .dict (toEntries entries)

def toValues : List Json → List Value
  | [] => []
  | j :: rest => toValue j :: toValues rest

def toEntries : List (String × Json) → List (Value × Value)
  | [] => []
  | (k, j) :: rest => (.text k, toValue j) :: toEntries rest

end

end Json
end ProtoBind
