/-
Default values of scalar fields.
-/
import ProtoBind.Scalar
import ProtoBind.Value

namespace ProtoBind

/-- The value of a scalar kind that was never set. -/
def Scalar.zero : Scalar → Value
  | .double | .float => .float Binary64.zero
  | .bool => .bool false
  | .string => .text ""
  | .bytes => .bytes []
  | _ => .int 0

namespace Text

/-- A text in Latin-1, with escapes for the characters outside it. -/
def latin1Escaped (s : String) : List UInt8 :=
  s.toList.flatMap fun c =>
    let n := c.toNat
    if n < 0x100 then [UInt8.ofNat n]
    else
      let escape := if n < 0x10000 then '\\' :: 'u' :: hexDigits 4 n else '\\' :: 'U' :: hexDigits 8 n
      escape.map fun d => UInt8.ofNat d.toNat

end Text

/-- A constant written as the default of a scalar field, as a value of the field's kind. -/
def Scalar.convertDefault (s : Scalar) (raw : Value) : Except ValueFault Value :=
  match s.valueClass with
  | .truth => raw.plainText.map fun word => .bool (word == "true")
  | .floating => do
    let word := Text.lowerAscii (← raw.plainText)
    if word == "inf" || word == "+inf" then .ok (.float (Binary64.infinity false))
    else if word == "-inf" then .ok (.float (Binary64.infinity true))
    else if word == "nan" || word == "-nan" || word == "+nan" then .ok (.float Binary64.nan)
    else raw.toDouble.map .float
  | .integer => raw.toInteger.map .int
  | .octets =>
    match raw with
    | .bytes bs => .ok (.bytes bs)
    | _ => raw.plainText.map fun s => .bytes (Text.latin1Escaped s)
  | .text => raw.plainText.map .text

/-- The zero of the scalar kind with a name, the number zero for any other name. -/
def zeroNamed (name : String) : Value :=
  match Scalar.ofName? name with
  | some s => s.zero
  | none => .int 0

/-- A constant as a default of the scalar kind with a name; for any other name it is its text. -/
def convertNamed (name : String) (raw : Value) : Except ValueFault Value :=
  match Scalar.ofName? name with
  | some s => s.convertDefault raw
  | none => raw.plainText.map .text

end ProtoBind
