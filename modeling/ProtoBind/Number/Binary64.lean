/-
Double precision numbers as 64-bit patterns.

A finite double is `±sig · 2^uexp / 2^1074` with `sig < 2^53`, so every
finite double is an integer once it is scaled by `2^1074`. Rounding,
comparison and conversion work on those integers and are exact.
-/
namespace ProtoBind

/-- A double, given by its bit pattern. Equality of the structure is equality
of patterns; `Binary64.equal` is equality of numbers. -/
structure Binary64 where
  bits : UInt64
  deriving DecidableEq, Repr, Inhabited

namespace Binary64

def word (x : Binary64) : Nat := x.bits.toNat

def sign (x : Binary64) : Bool := Nat.pow 2 63 ≤ x.word

/-- The biased exponent field. -/
def bexp (x : Binary64) : Nat := x.word / Nat.pow 2 52 % 2048

def frac (x : Binary64) : Nat := x.word % Nat.pow 2 52

def isNaN (x : Binary64) : Bool := x.bexp == 2047 && x.frac != 0

def isInf (x : Binary64) : Bool := x.bexp == 2047 && x.frac == 0

def isFinite (x : Binary64) : Bool := x.bexp != 2047

/-- The significand, hidden bit included. -/
def sig (x : Binary64) : Nat := if x.bexp = 0 then x.frac else Nat.pow 2 52 + x.frac

/-- The exponent of the significand's unit, counted from `2^-1074`. -/
def uexp (x : Binary64) : Nat := x.bexp - 1

/-- The magnitude of a finite double scaled by `2^1074`. -/
def mag (x : Binary64) : Nat := x.sig * Nat.pow 2 x.uexp

/-- A finite double scaled by `2^1074`. -/
def scaled (x : Binary64) : Int := if x.sign then -(x.mag : Int) else x.mag

/-- The double `±m · 2^p / 2^1074`, for `m < 2^53` with `2^52 ≤ m` unless `p = 0`. -/
def make (s : Bool) (m p : Nat) : Binary64 :=
  ⟨UInt64.ofNat ((if s then Nat.pow 2 63 else 0) +
    if m < Nat.pow 2 52 then m else (p + 1) * Nat.pow 2 52 + (m - Nat.pow 2 52))⟩

def zero : Binary64 := ⟨0⟩

def infinity (s : Bool) : Binary64 := ⟨if s then 0xfff0000000000000 else 0x7ff0000000000000⟩

/-- The quiet NaN without payload. -/
def nan : Binary64 := ⟨0x7ff8000000000000⟩

/-- `a / d` to the nearest integer, a half to the even one. -/
def rne (a d : Nat) : Nat :=
  let q := a / d
  let r := a % d
  if 2 * r < d then q else if d < 2 * r then q + 1 else if q % 2 = 0 then q else q + 1

/-- Significand and unit exponent of `a / d` rounded to `precision` bits: the
unit is as small as the precision allows and never below one. -/
def roundBits (precision a d : Nat) : Nat × Nat :=
  let q := a / d
  let p := if q = 0 then 0 else q.log2 + 1 - precision
  let m := rne a (d * Nat.pow 2 p)
  if m = Nat.pow 2 precision then (Nat.pow 2 (precision - 1), p + 1) else (m, p)

/-- The double nearest `±a / (d · 2^1074)`; nothing when it is too large. -/
def round? (s : Bool) (a d : Nat) : Option Binary64 :=
  let (m, p) := roundBits 53 a d
  if 2045 < p then none else some (make s m p)

/-- As `round?`, with infinity for what is too large. -/
def round (s : Bool) (a d : Nat) : Binary64 := (round? s a d).getD (infinity s)

/-- The double nearest an integer; nothing when it is too large. -/
def ofInt? (n : Int) : Option Binary64 := round? (n < 0) (n.natAbs * Nat.pow 2 1074) 1

/-- The integer part of a finite double. -/
def truncate? (x : Binary64) : Option Int :=
  if x.isFinite then
    let n : Nat := x.mag / Nat.pow 2 1074
    some (if x.sign then -(n : Int) else (n : Int))
  else none

/-- A finite double without a fractional part. -/
def isIntegral (x : Binary64) : Bool := x.isFinite && x.mag % Nat.pow 2 1074 == 0

/-- Equality of numbers: the two zeros are equal, a NaN equals nothing. -/
def equal (x y : Binary64) : Bool :=
  !x.isNaN && !y.isNaN && (x == y || (x.mag == 0 && y.mag == 0 && x.isFinite && y.isFinite))

/-- The double is exactly the integer `n`. -/
def equalInt (x : Binary64) (n : Int) : Bool := x.isFinite && x.scaled == n * Nat.pow 2 1074

/-- The double is a number at least `n`. -/
def atLeastInt (x : Binary64) (n : Int) : Bool :=
  if x.isNaN then false
  else if x.isInf then !x.sign
  else n * Nat.pow 2 1074 ≤ x.scaled

/-- Neither zero has a truth value, every other double has. -/
def truth (x : Binary64) : Bool := !(x.isFinite && x.mag == 0)

/-- The single precision pattern nearest a double; nothing when a finite double
is too large. A NaN keeps its sign and the top of its payload and is quiet. -/
def toSingle? (x : Binary64) : Option UInt32 :=
  let s := if x.sign then Nat.pow 2 31 else 0
  if x.isNaN then some (UInt32.ofNat (s + 0x7fc00000 + x.frac / Nat.pow 2 29 % Nat.pow 2 22))
  else if x.isInf then some (UInt32.ofNat (s + 0x7f800000))
  else
    let (m, p) := roundBits 24 x.mag (Nat.pow 2 925)
    if 253 < p then none
    else some (UInt32.ofNat (s + if m < Nat.pow 2 23 then m else (p + 1) * Nat.pow 2 23 + (m - Nat.pow 2 23)))

/-- The double with the value of a single precision pattern. A NaN becomes quiet. -/
def ofSingle (w : UInt32) : Binary64 :=
  let n := w.toNat
  let s : Bool := Nat.pow 2 31 ≤ n
  let e := n / Nat.pow 2 23 % 256
  let f := n % Nat.pow 2 23
  if e = 255 then
    if f = 0 then infinity s
    else ⟨UInt64.ofNat ((if s then Nat.pow 2 63 else 0) + 0x7ff8000000000000 + f % Nat.pow 2 22 * Nat.pow 2 29)⟩
  else
    let m := if e = 0 then f else Nat.pow 2 23 + f
    round s (m * Nat.pow 2 (e - 1) * Nat.pow 2 925) 1

end Binary64
end ProtoBind
