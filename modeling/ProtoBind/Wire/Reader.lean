/-
Reading wire data.

A reader is a position and the bytes after it. It keeps the bytes it took
also when it fails, so the position after a failure is part of the answer.
-/
import ProtoBind.Scalar
import ProtoBind.Text.Utf8
import ProtoBind.Value

namespace ProtoBind

/-- Why wire data could not be read. -/
inductive WireFault
  | outOfRange (position count length : Nat)
  | endlessVarint
  | badWireType (number : Int) (position : Nat)
  /-- A string field holds bytes that are not text. -/
  | notText
  deriving DecidableEq, Repr, Inhabited

/-- The wording of a fault; bytes that are not text have none of their own, and a number of too many
digits cannot be shown. -/
def WireFault.message? : WireFault → Option String
  | outOfRange p n l =>
    some s!"index out of range: {p} + {n} > {l}"
  | endlessVarint => some "invalid varint encoding"
  | badWireType w p => (numeral w).toOption.map ("invalid wire type " ++ · ++ s!" at offset {p}")
  | notText => none

/-- A position in a byte string and what follows it. -/
structure Reader where
  pos : Nat
  rest : List UInt8
  deriving Repr, Inhabited, DecidableEq

/-- A computation that takes bytes from a reader. -/
abbrev Read := EStateM WireFault Reader

namespace Reader

def ofBytes (bs : List UInt8) : Reader := ⟨0, bs⟩

/-- The length of the whole byte string. -/
def length (r : Reader) : Nat := r.pos + r.rest.length

/-- The next `n` bytes. -/
def take (n : Nat) : Read (List UInt8) := fun r =>
  if r.rest.length < n then .error (.outOfRange r.pos n r.length) r
  else .ok (r.rest.take n) ⟨r.pos + n, r.rest.drop n⟩

def byte : Read UInt8 := fun r =>
  match r.rest with
  | [] => .error (.outOfRange r.pos 1 r.length) r
  | b :: rest => .ok b ⟨r.pos + 1, rest⟩

/-- A varint of at most `n` bytes. -/
def varintUpTo : Nat → Read Nat
  | 0 => throw .endlessVarint
  | n + 1 => do
    let b ← byte
    if b.toNat < 128 then return b.toNat
    let high ← varintUpTo n
    return b.toNat - 128 + 128 * high

/-- A varint of at most ten bytes. -/
def varint : Read Nat := varintUpTo 10

/-- A pattern of `width` bits as a signed number. -/
def signed (width n : Nat) : Int := if n < Nat.pow 2 (width - 1) then n else (n : Int) - (Nat.pow 2 width : Nat)

/-- The number whose zigzag pattern is `n`. -/
def unzigzag (n : Nat) : Int := if n % 2 = 0 then (n / 2 : Nat) else -(n / 2 : Nat) - 1

def uint32 : Read Nat := return (← varint) % Nat.pow 2 32

def uint64 : Read Nat := return (← varint) % Nat.pow 2 64

def int32 : Read Int := return signed 32 (← uint32)

def int64 : Read Int := return signed 64 (← uint64)

def sint32 : Read Int := return unzigzag (← uint32)

def sint64 : Read Int := return unzigzag (← uint64)

def bool : Read Bool := return (← varint) != 0

/-- The number of bytes given lowest first. -/
def ofLittleEndian : List UInt8 → Nat
  | [] => 0
  | b :: rest => b.toNat + 256 * ofLittleEndian rest

/-- A number of `n` bytes, lowest first. -/
def fixed (n : Nat) : Read Nat := return ofLittleEndian (← take n)

def float : Read Binary64 := return Binary64.ofSingle (UInt32.ofNat (← fixed 4))

def double : Read Binary64 := return ⟨UInt64.ofNat (← fixed 8)⟩

/-- A byte string after its length. -/
def bytes : Read (List UInt8) := do take (← uint32)

def string : Read String := do
  match Text.decodeUtf8? (← bytes) with
  | some s => return s
  | none => throw .notText

/-- Passes over a varint. -/
def skipVarint : Read Unit := discard varint

/-- Passes over `n` bytes. -/
def skip (n : Nat) : Read Unit := discard (take n)

/-- Passes over one value of a wire type; `group` passes over the rest of a group. -/
def skipWith (group : Read Unit) (wireType : Int) : Read Unit :=
  if wireType = 0 then skipVarint
  else if wireType = 1 then skip 8
  else if wireType = 2 then do skip (← uint32)
  else if wireType = 3 then group
  else if wireType = 5 then skip 4
  else fun r => .error (.badWireType wireType r.pos) r

/-- Passes over fields up to the end of a group. Every field takes a byte, so more
`fuel` than there are bytes is enough. -/
def skipGroup : (fuel : Nat) → Read Unit
  | 0 => fun r => .error (.outOfRange r.pos 1 r.length) r
  | fuel + 1 => do
    let wireType := (← uint32) % 8
    if wireType = 4 then return
    skipWith (skipGroup fuel) wireType
    skipGroup fuel

/-- Passes over one value of a wire type, a group as a whole. -/
def skipType (wireType : Int) : Read Unit := fun r =>
  skipWith (skipGroup (r.rest.length + 1)) wireType r

/-- A value of a scalar kind. -/
def scalar : Scalar → Read Value
  | .uint32 => return .int (← uint32)
  | .int32 => return .int (← int32)
  | .sint32 => return .int (← sint32)
  | .uint64 => return .int (← uint64)
  | .int64 => return .int (← int64)
  | .sint64 => return .int (← sint64)
  | .bool => return .bool (← bool)
  | .fixed32 => return .int (← fixed 4)
  | .sfixed32 => return .int (signed 32 (← fixed 4))
  | .fixed64 => return .int (← fixed 8)
  | .sfixed64 => return .int (signed 64 (← fixed 8))
  | .float => return .float (← float)
  | .double => return .float (← double)
  | .bytes => return .bytes (← bytes)
  | .string => return .text (← string)

end Reader
end ProtoBind
