/-
Writing messages.

A message writes its fields in the order of their descriptors. A regular field
is left out while it holds its default, a member of a oneof group is written
when it is set, and the values of a repeated field may share one run.
-/
import ProtoBind.Message.Equal
import ProtoBind.Wire.Writer

namespace ProtoBind.Message

def lift {α : Type} : Except ValueFault α → Except Fault α
  | .ok a => .ok a
  | .error e => .error (.value e)

/-- A value as a scalar kind; for the integer kinds it is converted first. -/
def writeScalar (k : Scalar) (v : Value) : Except Fault (List UInt8) :=
  lift do
    let v ← if k.isInteger then do pure (.int (← v.toInteger)) else pure v
    (k.write v).toExcept

/-- A value behind the key of its field; `body` gives what a message writes. -/
def writeElement (body : Instance → Except Fault (List UInt8)) (number : Int) (e : Element)
    (v : Value) : Except Fault (List UInt8) :=
  match e with
  | .scalar k => do return Wire.key number k.wireType.number ++ (← writeScalar k v)
  | .enum _ => do return Wire.key number WireType.varint.number ++ (← writeScalar .int32 v)
  | .message _ =>
    match Instance.ofValue? v with
    | some m => do
      return Wire.key number WireType.lengthDelimited.number ++ Wire.bytes (← body m)
    | none => .error (.notMessage number v.kindName)

/-- The kind that values of an element have inside a shared run. -/
def Element.packedKind? : Element → Option Scalar
  | scalar k => if k.isPackable then some k else none
  | enum _ => some .int32
  | message _ => none

/-- The entries of a mapping. -/
def entriesOf : Value → Except Fault (List (Value × Value))
  | .dict entries => .ok entries
  | _ => .error (.value .noAttribute)

/-- The values that a repeated field runs through. -/
def itemsOf (v : Value) : Except Fault (List Value) :=
  match v.items? with
  | some items => .ok items
  | none => .error (.value .wrongKind)

/-- What several parts write, one behind the other. -/
def writeAll {α : Type} (write : α → Except Fault (List UInt8)) (parts : List α) :
    Except Fault (List UInt8) := do
  return (← parts.mapM write).flatten

namespace Library

/-- A value of a described field behind its key. -/
def writeValue (lib : Library) (body : Instance → Except Fault (List UInt8)) (f : Reflection.Field)
    (number : Int) (v : Value) : Except Fault (List UInt8) :=
  match lib.elementOf? f with
  | some e => writeElement body number e v
  | none => .error (.unknownType number f.type)

/-- The key of a map entry. -/
def writeMapKey (f : Reflection.Field) (v : Value) : Except Fault (List UInt8) := do
  let name ← lift f.keyType.plainText
  match Scalar.ofName? name with
  | some k => writeElement (fun _ => .ok []) 1 (.scalar k) v
  | none => .error (.unknownType 1 name)

/-- The kind in which the values of a field share one run, if they do. -/
def packedKind? (lib : Library) (f : Reflection.Field) : Option Scalar :=
  if f.packed.truth then (lib.elementOf? f).bind Element.packedKind? else none

/-- The field has messages for values. -/
def isMessageField (lib : Library) (f : Reflection.Field) : Bool :=
  match lib.elementOf? f with
  | some (.message _) => true
  | _ => false

/-- What a field writes for the value it reads as. -/
def writeField (lib : Library) (body : Instance → Except Fault (List UInt8)) (m : Instance)
    (f : Reflection.Field) (v : Value) : Except Fault (List UInt8) := do
  let number := f.id.integer?.getD 0
  let frame (bs : List UInt8) := Wire.key number WireType.lengthDelimited.number ++ Wire.bytes bs
  if f.oneof.isSome then
    if MessageClass.isActive m f then lib.writeValue body f number v else return []
  else if f.isMap then
    writeAll (fun (k, item) => do
      return frame ((← writeMapKey f k) ++ (← lib.writeValue body f 2 item))) (← entriesOf v)
  else if f.repeated then
    if !v.truth then return []
    match lib.packedKind? f with
    | some k => return frame (← writeAll (writeScalar k) (← itemsOf v))
    | none => writeAll (lib.writeValue body f number) (← itemsOf v)
  else
    match v with
    | .null => return []
    | v =>
      if !lib.isMessageField f && lib.equal v f.default then return []
      else lib.writeValue body f number v

/-- What a message writes, down to a depth of nesting. -/
def encodeUpTo (lib : Library) : Nat → Instance → Except Fault (List UInt8)
  | 0, _ => .ok []
  | fuel + 1, m =>
    match lib.message? m.type with
    | some c =>
      writeAll (fun f => do lib.writeField (lib.encodeUpTo fuel) m f (← c.get m f.attr)) c.fields
    | none => .ok []

/-- The bytes of a message. -/
def encode (lib : Library) (m : Instance) : Except Fault (List UInt8) :=
  lib.encodeUpTo m.value.depth m

/-- The bytes of a message after their length. -/
def encodeDelimited (lib : Library) (m : Instance) : Except Fault (List UInt8) := do
  return Wire.bytes (← lib.encode m)

end Library
end ProtoBind.Message
