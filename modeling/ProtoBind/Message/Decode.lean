/-
Reading messages.

A message is a run of records up to a position: a key, and a value that the
field with the number of the key takes. Records of unknown fields are passed
over; later records of a single field win.
-/
import ProtoBind.Message.Encode

namespace ProtoBind.Message

/-- A computation that takes the bytes of messages from a reader. -/
abbrev Decode := EStateM Fault Reader

namespace Decode

/-- Reads something that is not a message. -/
def ofRead {α : Type} (read : Read α) : Decode α := fun r =>
  match read r with
  | .ok a r => .ok a r
  | .error e r => .error (.wire e) r

/-- Repeats a step up to a position. -/
def stepsUpTo {σ : Type} (stop : Nat) (step : σ → Decode σ) : (fuel : Nat) → σ → Decode σ
  | 0, s => return s
  | fuel + 1, s => do
    if (← get).pos < stop then stepsUpTo stop step fuel (← step s) else return s

/-- Repeats a step that takes at least one byte up to a position. -/
def upTo {σ : Type} (stop : Nat) (step : σ → Decode σ) (s : σ) : Decode σ := fun r =>
  stepsUpTo stop step (r.rest.length + 1) s r

/-- The position behind a run that starts with its length. -/
def runEnd : Decode Nat := do
  let length ← ofRead Reader.uint32
  return length + (← get).pos

end Decode

open Decode

/-- Reads the message of a type up to a position. -/
abbrev Nested := String → Nat → Decode Value

/-- A map entry as far as it was read. -/
structure MapEntry where
  key : Value
  value : Value

namespace Library

/-- Reads one element. -/
def readElement (lib : Library) (nested : Nested) : Element → Decode Value
  | .scalar k => ofRead (Reader.scalar k)
  | .enum type => do
    let n ← ofRead Reader.int32
    return match lib.enum? type with
      | some e => e.ofValue (.int n)
      | none => .int n
  | .message type => do nested type (← runEnd)

/-- A new message of a type. -/
def fresh (lib : Library) (type : String) : Except Fault Value :=
  match lib.message? type with
  | some c => do return (← c.fresh).value
  | none => .error (.value .noAttribute)

/-- The value of a map entry that has none. -/
def missingValue (lib : Library) : Element → Except Fault Value
  | .scalar k => .ok k.zero
  | .enum _ => .ok (.int 0)
  | .message type => lib.fresh type

/-- Reads one element of a field. Where the expression for a class stands for something else, a message is asked of
what has none, and the number of an enum is read for what takes none. -/
def readPart (lib : Library) (nested : Nested) (p : FieldCodec) : Decode Value :=
  match p.read, p.element with
  | some e, _ => lib.readElement nested e
  | none, .message _ => throw (.value .noAttribute)
  | none, _ => do
    discard (ofRead Reader.int32)
    throw (.value .wrongKind)

/-- The value of an entry of a map field that has none. -/
def missingPart (lib : Library) (p : FieldCodec) : Except Fault Value :=
  match p.read, p.element with
  | some e, _ => lib.missingValue e
  | none, .message _ => .error (.value .wrongKind)
  | none, e => lib.missingValue e

/-- Reads one record of a map entry. -/
def readEntryPart (lib : Library) (nested : Nested) (key : Scalar) (p : FieldCodec) (entry : MapEntry) :
    Decode MapEntry := do
  let tag ← ofRead Reader.uint32
  if tag / 8 = 1 then return { entry with key := ← ofRead (Reader.scalar key) }
  else if tag / 8 = 2 then return { entry with value := ← lib.readPart nested p }
  else
    ofRead (Reader.skipType (tag % 8 : Nat))
    return entry

/-- Reads a map entry into an attribute. -/
def readEntry (lib : Library) (nested : Nested) (c : MessageClass) (p : FieldCodec) (key : Scalar)
    (m : Instance) : Decode Instance := do
  let stop ← runEnd
  let entry : MapEntry := ⟨key.zero, ← ofExcept (lib.missingPart p)⟩
  let entry ← upTo stop (lib.readEntryPart nested key p) entry
  ofExcept (c.modify m p.target (Value.putAt entry.key entry.value))

/-- Reads an element and adds it to the list that an attribute holds. -/
def readItem (lib : Library) (nested : Nested) (c : MessageClass) (p : FieldCodec) (m : Instance) :
    Decode Instance := do
  let .list _ ← ofExcept (c.get m p.target) | throw (.value .noAttribute)
  let v ← lib.readPart nested p
  ofExcept (c.modify m p.target v.append)

/-- Reads the value of a field behind a key with the wire type. -/
def readField (lib : Library) (nested : Nested) (c : MessageClass) (p : FieldCodec) (wireType : Nat)
    (m : Instance) : Decode Instance := do
  match p.arity with
  | .map key => lib.readEntry nested c p key m
  | .repeated =>
    if p.element.isPackable && wireType = WireType.lengthDelimited.number then
      upTo (← runEnd) (lib.readItem nested c p) m
    else lib.readItem nested c p m
  | .single => ofExcept (c.set m p.target (← lib.readPart nested p))

/-- Reads one record: that of a known field, or one to pass over. -/
def readRecord (lib : Library) (nested : Nested) (c : MessageClass) (m : Instance) :
    Decode Instance := do
  let tag ← ofRead Reader.uint32
  match c.codecs.find? (·.number == ((tag / 8 : Nat) : Int)) with
  | some p => lib.readField nested c p (tag % 8) m
  | none =>
    ofRead (Reader.skipType (tag % 8 : Nat))
    return m

/-- Reads a message of a type up to a position. Every message inside another takes bytes of its
own, so more `fuel` than there are bytes is enough. -/
def decodeUpTo (lib : Library) : (fuel : Nat) → Nested
  | 0, _, _ => ofRead fun r => .error (.outOfRange r.pos 1 r.length) r
  | fuel + 1, type, stop => do
    match lib.message? type with
    | some c => return (← upTo stop (lib.readRecord (lib.decodeUpTo fuel) c) (← ofExcept c.fresh)).value
    | none => throw (.value .noAttribute)

/-- Reads a message up to a position, or to the end. -/
def decode (lib : Library) (type : String) (length : Option Nat) : Decode Value := fun r =>
  lib.decodeUpTo (r.rest.length + 1) type (r.pos + length.getD r.rest.length) r

/-- Reads a message behind its length. -/
def decodeDelimited (lib : Library) (type : String) : Decode Value := do
  lib.decode type (some (← ofRead Reader.uint32))

/-- The message that a whole byte string holds. -/
def ofBytes (lib : Library) (type : String) (bs : List UInt8) : Except Fault Value :=
  match lib.decode type none (Reader.ofBytes bs) with
  | .ok v _ => .ok v
  | .error e _ => .error e

end Library
end ProtoBind.Message
