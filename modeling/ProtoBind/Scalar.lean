/-
Scalar kinds of the schema language and how they travel on the wire.
-/
namespace ProtoBind

/-- The scalar kinds. -/
inductive Scalar
  | double | float
  | int32 | int64 | uint32 | uint64 | sint32 | sint64
  | fixed32 | fixed64 | sfixed32 | sfixed64
  | bool | string | bytes
  deriving DecidableEq, Repr, Inhabited

/-- How a value is framed on the wire. -/
inductive WireType
  | varint | fixed64 | lengthDelimited | startGroup | endGroup | fixed32
  deriving DecidableEq, Repr

namespace WireType

/-- The number that stands for the wire type in the low bits of a key. -/
def number : WireType → Nat
  | varint => 0
  | fixed64 => 1
  | lengthDelimited => 2
  | startGroup => 3
  | endGroup => 4
  | fixed32 => 5

end WireType

namespace Scalar

def all : List Scalar :=
  [double, float, int32, int64, uint32, uint64, sint32, sint64, fixed32, fixed64, sfixed32,
    sfixed64, bool, string, bytes]

theorem mem_all (s : Scalar) : s ∈ all := by cases s <;> decide

/-- The keyword of the schema language. -/
def name : Scalar → String
  | double => "double"
  | float => "float"
  | int32 => "int32"
  | int64 => "int64"
  | uint32 => "uint32"
  | uint64 => "uint64"
  | sint32 => "sint32"
  | sint64 => "sint64"
  | fixed32 => "fixed32"
  | fixed64 => "fixed64"
  | sfixed32 => "sfixed32"
  | sfixed64 => "sfixed64"
  | bool => "bool"
  | string => "string"
  | bytes => "bytes"

def ofName? (s : String) : Option Scalar := all.find? (·.name == s)

theorem ofName?_name (s : Scalar) : ofName? s.name = some s := by cases s <;> decide

def wireType : Scalar → WireType
  | double | fixed64 | sfixed64 => .fixed64
  | float | fixed32 | sfixed32 => .fixed32
  | int32 | int64 | uint32 | uint64 | sint32 | sint64 | bool => .varint
  | string | bytes => .lengthDelimited

/-- Repeated values of the kind may share one length-delimited run. -/
def isPackable (s : Scalar) : Bool := s.wireType != .lengthDelimited

def isInteger : Scalar → Bool
  | double | float | bool | string | bytes => false
  | _ => true

/-- The class of values that a scalar kind holds. -/
inductive Class
  | floating | integer | truth | text | octets
  deriving DecidableEq, Repr

def valueClass : Scalar → Class
  | double | float => .floating
  | bool => .truth
  | string => .text
  | bytes => .octets
  | _ => .integer

end Scalar
end ProtoBind
