/-
Decimal numerals for doubles.

`Binary64.ofDecimal` reads `digits · 10^exponent` as the nearest double.
`Binary64.shortest` finds the numeral with the fewest digits that reads back,
and of those the one nearest the value. `Binary64.text` writes it.
-/
import ProtoBind.Number.Binary64

namespace ProtoBind

/-- The number `digits · 10^exponent`. -/
structure Decimal where
  digits : Nat
  exponent : Int
  deriving DecidableEq, Repr, Inhabited

/-- The decimal digits of a number, most significant first. -/
def decimalDigits (n : Nat) : List Char := Nat.toDigits 10 n

namespace Binary64

/-- The double nearest `±digits · 10^exponent`. Exponents far outside the range
of doubles are answered without forming the power. -/
def ofDecimal (s : Bool) (d : Decimal) : Binary64 :=
  if d.digits = 0 then make s 0 0
  else
    let places : Int := d.exponent + (decimalDigits d.digits).length
    if 400 < places then infinity s
    else if places < -400 then make s 0 0
    else if 0 ≤ d.exponent then round s (d.digits * Nat.pow 10 d.exponent.toNat * Nat.pow 2 1074) 1
    else round s (d.digits * Nat.pow 2 1074) (Nat.pow 10 (-d.exponent).toNat)

/-- The exponent `e` with `10^e ≤ a / d < 10^(e+1)`, for positive `a` and `d`. -/
def decimalExponent (a d : Nat) : Int :=
  if d ≤ a then (decimalDigits (a / d)).length - 1
  else
    let t := (decimalDigits (d / a)).length
    if a * Nat.pow 10 (t - 1) = d then -((t - 1 : Nat) : Int) else -(t : Int)

/-- The numerals with `n` digits next below and next above `a / d`. -/
def gridNeighbours (n a d : Nat) : Decimal × Decimal :=
  let k : Int := decimalExponent a d - (n - 1 : Nat)
  let lower := if 0 ≤ k then a / (d * Nat.pow 10 k.toNat) else a * Nat.pow 10 (-k).toNat / d
  (⟨lower, k⟩, ⟨lower + 1, k⟩)

/-- Twice the distance of a numeral from `a / d` against one unit of its last digit:
whether the lower neighbour is at least as near as the upper one. -/
def lowerIsNearer (lower : Decimal) (a d : Nat) : Bool :=
  if 0 ≤ lower.exponent then
    let unit := d * Nat.pow 10 lower.exponent.toNat
    2 * (a - lower.digits * unit) ≤ unit
  else
    2 * (a * Nat.pow 10 (-lower.exponent).toNat - lower.digits * d) ≤ d

/-- The first grid, from `n` digits on, with a neighbour that reads back as `x`. -/
def shortestFrom (x : Binary64) (n : Nat) : Nat → Decimal
  | 0 => (gridNeighbours n x.mag (Nat.pow 2 1074)).1
  | more + 1 =>
    let (lower, upper) := gridNeighbours n x.mag (Nat.pow 2 1074)
    let reads (d : Decimal) : Bool := ofDecimal false d == make false x.sig x.uexp
    match reads lower, reads upper with
    | true, true => if lowerIsNearer lower x.mag (Nat.pow 2 1074) then lower else upper
    | true, false => lower
    | false, true => upper
    | false, false => shortestFrom x (n + 1) more

/-- The shortest numeral for the magnitude of a finite nonzero double. -/
def shortest (x : Binary64) : Decimal := shortestFrom x 1 17

/-- Digits of a numeral without the zeros at its end, and the power of ten of the
first digit. -/
def significant (d : Decimal) : List Char × Int :=
  let digits := decimalDigits d.digits
  ((digits.reverse.dropWhile (· == '0')).reverse, d.exponent + digits.length - 1)

/-- How doubles are written: powers of ten from `least` up to and excluding `limit`
are written positionally, the rest with an exponent of at least `width` digits. -/
structure Layout where
  least : Int
  limit : Int
  width : Nat

/-- Positional from `0.0001` up to `10^16`, two digits of exponent. -/
def layout : Layout := ⟨-4, 16, 2⟩

/-- Digits with their first digit at the power of ten `e`, written positionally, with
at least one digit after the point. -/
def positional (digits : List Char) (e : Int) : List Char :=
  if e < 0 then '0' :: '.' :: List.replicate ((-e).toNat - 1) '0' ++ digits
  else
    let whole := e.toNat + 1
    let front := digits.take whole
    let back := digits.drop whole
    front ++ List.replicate (whole - front.length) '0' ++ '.' :: (if back.isEmpty then ['0'] else back)

/-- Digits with their first digit at the power of ten `e`, written with an exponent. -/
def scientific (l : Layout) (digits : List Char) (e : Int) : List Char :=
  let tail := digits.drop 1
  let power := decimalDigits e.natAbs
  digits.take 1 ++ (if tail.isEmpty then [] else '.' :: tail) ++
    'e' :: (if e < 0 then '-' else '+') :: List.replicate (l.width - power.length) '0' ++ power

/-- The text of a double: its shortest numeral, `inf` or `nan`. -/
def text (x : Binary64) : String :=
  if x.isNaN then "nan"
  else
    let sign := if x.sign then ['-'] else []
    if x.isInf then String.ofList (sign ++ ['i', 'n', 'f'])
    else if x.mag = 0 then String.ofList (sign ++ ['0', '.', '0'])
    else
      let (digits, e) := significant x.shortest
      let body :=
        if layout.least ≤ e ∧ e < layout.limit then positional digits e
        else scientific layout digits e
      String.ofList (sign ++ body)

end Binary64
end ProtoBind
