/-
Writing wire data.

Every writer is a function to bytes, so what a message writes is the
concatenation of what its parts write. Integers of any size are reduced to
the width of their kind; `Scalar.write` takes dynamic values and says what
was written before a value was refused.
-/
import ProtoBind.Scalar
import ProtoBind.Text.Utf8
import ProtoBind.Value

namespace ProtoBind.Wire

/-- A number in groups of seven bits, lowest first; every byte but the last has its
high bit set. -/
def varint (n : Nat) : List UInt8 :=
  if n < 128 then [UInt8.ofNat n] else UInt8.ofNat (n % 128 + 128) :: varint (n / 128)
termination_by n
decreasing_by omega

/-- The two's complement pattern of an integer in `width` bits. -/
def reduce (width : Nat) (n : Int) : Nat := (n % (Nat.pow 2 width : Nat)).toNat

/-- `width` bytes of a number, lowest first. -/
def littleEndian : (width n : Nat) → List UInt8
  | 0, _ => []
  | width + 1, n => UInt8.ofNat (n % 256) :: littleEndian width (n / 256)

def uint32 (n : Int) : List UInt8 := varint (reduce 32 n)

def uint64 (n : Int) : List UInt8 := varint (reduce 64 n)

/-- Negative numbers are extended to 64 bits, so they take ten bytes. -/
def int32 (n : Int) : List UInt8 := varint (if n < 0 then reduce 64 n else reduce 32 n)

def int64 (n : Int) : List UInt8 := varint (reduce 64 n)

/-- Numbers of small magnitude become small: the sign goes to the lowest bit. -/
def zigzag (width : Nat) (n : Int) : Nat :=
  reduce width (2 * n) ^^^ reduce width (n / (Nat.pow 2 (width - 1) : Nat))

def sint32 (n : Int) : List UInt8 := varint (zigzag 32 n)

def sint64 (n : Int) : List UInt8 := varint (zigzag 64 n)

def bool (b : Bool) : List UInt8 := varint (if b then 1 else 0)

def fixed32 (n : Int) : List UInt8 := littleEndian 4 (reduce 32 n)

def fixed64 (n : Int) : List UInt8 := littleEndian 8 (reduce 64 n)

/-- A byte string after its length. -/
def bytes (bs : List UInt8) : List UInt8 := uint32 bs.length ++ bs

def string (s : String) : List UInt8 := bytes (Text.encodeUtf8 s)

def double (x : Binary64) : List UInt8 := littleEndian 8 x.word

/-- The key of a field: its number and how its value is framed. -/
def key (number wireType : Int) : List UInt8 :=
  varint (reduce 32 (8 * number) ||| reduce 32 wireType)

/-- The signed range of a width holds the number. -/
def inSignedRange (width : Nat) (n : Int) : Bool :=
  -(Nat.pow 2 (width - 1) : Nat) ≤ n && n < (Nat.pow 2 (width - 1) : Nat)

/-- What was written, and why writing stopped, if it did. -/
structure Written where
  bytes : List UInt8
  fault : Option ValueFault := none

/-- All was written, or nothing. -/
def Written.ofExcept : Except ValueFault (List UInt8) → Written
  | .ok bs => ⟨bs, none⟩
  | .error e => ⟨[], some e⟩

def Written.toExcept (w : Written) : Except ValueFault (List UInt8) :=
  match w.fault with
  | none => .ok w.bytes
  | some e => .error e

/-- An integer for a kind that reduces its values. -/
def reducible (v : Value) (write : Int → List UInt8) : Except ValueFault (List UInt8) :=
  match v.integer? with
  | some n => .ok (write n)
  | none => .error .wrongKind

/-- An integer for a kind that refuses values outside its range. -/
def ranged (width : Nat) (v : Value) : Except ValueFault (List UInt8) :=
  match v.integer? with
  | some n =>
    if inSignedRange width n then .ok (littleEndian (width / 8) (reduce width n))
    else .error .unrepresentable
  | none => .error .unrepresentable

/-- A double or an integer for a floating kind. -/
def floating (v : Value) : Except ValueFault Binary64 :=
  match v with
  | .float x => .ok x
  | v => match v.integer? with
    | some n => match Binary64.ofInt? n with
      | some x => .ok x
      | none => .error .unrepresentable
    | none => .error .unrepresentable

def single (x : Binary64) : Except ValueFault (List UInt8) :=
  match x.toSingle? with
  | some w => .ok (littleEndian 4 w.toNat)
  | none => .error .overflow

/-- One byte given as an integer. -/
def octet (v : Value) : Except ValueFault UInt8 :=
  match v.integer? with
  | some n => if 0 ≤ n ∧ n < 256 then .ok (UInt8.ofNat n.toNat) else .error .unacceptable
  | none => .error .wrongKind

/-- Bytes, or a container of integers; the length is written before the contents are seen. -/
def octets (v : Value) : Written :=
  match v with
  | .bytes bs => ⟨bytes bs, none⟩
  | .list items => framed items
  | .dict entries => framed (entries.map (·.1))
  | .text s | .ident s =>
    if s.isEmpty then ⟨bytes [], none⟩ else ⟨uint32 s.length, some .wrongKind⟩
  | _ => ⟨[], some .wrongKind⟩
where
  framed (items : List Value) : Written :=
    match items.mapM octet with
    | .ok bs => ⟨bytes bs, none⟩
    | .error e => ⟨uint32 items.length, some e⟩

end Wire

open Wire in
/-- A dynamic value as a scalar kind, without its key. -/
def Scalar.write (s : Scalar) (v : Value) : Written :=
  match s with
  | .uint32 => .ofExcept (reducible v Wire.uint32)
  | .int32 => .ofExcept (reducible v Wire.int32)
  | .sint32 => .ofExcept (reducible v Wire.sint32)
  | .uint64 => .ofExcept (reducible v Wire.uint64)
  | .int64 => .ofExcept (reducible v Wire.int64)
  | .sint64 => .ofExcept (reducible v Wire.sint64)
  | .fixed32 => .ofExcept (reducible v Wire.fixed32)
  | .fixed64 => .ofExcept (reducible v Wire.fixed64)
  | .sfixed32 => .ofExcept (ranged 32 v)
  | .sfixed64 => .ofExcept (ranged 64 v)
  | .bool => ⟨Wire.bool v.truth, none⟩
  | .float => .ofExcept (floating v >>= single)
  | .double => .ofExcept ((floating v).map Wire.double)
  | .bytes => octets v
  | .string => match v.string? with
    | some t => ⟨Wire.string t, none⟩
    | none => ⟨[], some .noAttribute⟩

end ProtoBind
