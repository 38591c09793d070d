/-
Creating messages from properties.

Properties are a mapping from attributes to values; a value is converted to
what its field holds, a mapping for a message field becomes a message. A
message of the wanted class is taken as it is.
-/
import ProtoBind.Message.Decode
import ProtoBind.Message.Show

namespace ProtoBind.Message

/-- The bytes that a value converts to: bytes, a run of small numbers, or as many zeros as a
number says. -/
def toOctets (v : Value) : Except ValueFault (List UInt8) :=
  match v with
  | .bytes bs => .ok bs
  | .text _ | .ident _ => .error .wrongKind
  | v =>
    match v.integer?, v.items? with
    | some n, _ =>
      if n < -9223372036854775808 ∨ 9223372036854775808 ≤ n then .error .overflow
      else if n < 0 then .error .unacceptable
      else if 1099511627776 ≤ n then .error .tooLarge
      else .ok (List.replicate n.toNat 0)
    | none, some items => items.mapM Wire.octet
    | none, none => .error .wrongKind

namespace Library

/-- A value converted to a scalar kind. -/
def convertScalar (lib : Library) (k : Scalar) (v : Value) : Except ValueFault Value :=
  match k.valueClass with
  | .integer => v.toInteger.map .int
  | .floating => v.toDouble.map .float
  | .truth => .ok (.bool v.truth)
  | .text => (lib.plainText v).map .text
  | .octets => (toOctets v).map .bytes

/-- A value converted to what a field holds; `nested` creates the messages of a type. -/
def convertElement (lib : Library) (nested : String → Value → Except Fault Value) (e : Element)
    (v : Value) : Except Fault Value :=
  match e with
  | .scalar k => lift (lib.convertScalar k v)
  | .enum type =>
    match lib.enum? type with
    | some c => lift (c.convert v)
    | none => .error (.value .noAttribute)
  | .message type => nested type v

/-- A value converted to what a field holds; where the expression for the class stands for something else, there is
nothing to create it with. -/
def convertPart (lib : Library) (nested : String → Value → Except Fault Value) (p : FieldCodec) (v : Value) :
    Except Fault Value :=
  match p.made with
  | some e => lib.convertElement nested e v
  | none => .error (.value .noAttribute)

/-- The value of a property converted to what its field holds. -/
def convertProperty (lib : Library) (nested : String → Value → Except Fault Value) (p : FieldCodec)
    (v : Value) : Except Fault Value := do
  match p.arity with
  | .single => lib.convertPart nested p v
  | .repeated => return .list (← (← itemsOf v).mapM (lib.convertPart nested p))
  | .map key =>
    let entries ← (← entriesOf v).mapM fun (k, item) => do
      return (← lift (lib.convertScalar key k), ← lib.convertPart nested p item)
    return .dict (Entries.ofList Value.sameKey entries)

/-- The value of a property, if it is there. -/
def property? (props : Value) (attr : String) : Except Fault (Option Value) := do
  match Entries.get? Value.sameKey (.text attr) (← entriesOf props) with
  | none | some .null => return none
  | some v => return some v

/-- Sets a field from the properties. -/
def setProperty (lib : Library) (nested : String → Value → Except Fault Value) (c : MessageClass)
    (props : Value) (m : Instance) (p : FieldCodec) : Except Fault Instance := do
  match ← property? props p.attr with
  | some v => c.set m p.target (← lib.convertProperty nested p v)
  | none => return m

/-- The value is a message of a type. -/
def isMessageOf (type : String) : Value → Bool
  | .message _ t _ _ => t == type
  | _ => false

/-- A message of a type from properties, down to a depth of nesting. -/
def createUpTo (lib : Library) : (fuel : Nat) → String → Value → Except Fault Value
  | 0, type, _ => lib.fresh type
  | fuel + 1, type, props =>
    if isMessageOf type props then .ok props
    else
      match lib.message? type with
      | none => .error (.value .noAttribute)
      | some c => do
        let m ← c.fresh
        if !props.truth then return m.value
        return (← c.codecs.foldlM (lib.setProperty (lib.createUpTo fuel) c props) m).value

/-- A message of a type from properties. -/
def create (lib : Library) (type : String) (props : Value) : Except Fault Value :=
  lib.createUpTo (props.depth + 1) type props

end Library
end ProtoBind.Message
