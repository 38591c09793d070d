/-
Numbers read from free text.

Blanks around a number are allowed, digits may be those of any script, and
single underscores may stand between digits. An integer has at most 4300
digits.
-/
import ProtoBind.Number.Decimal
import ProtoBind.Text.Blank

namespace ProtoBind.Text

/-- The code points of the zeros of all decimal scripts; the other nine digits follow each. -/
def digitZeros : List Nat :=
  [
    48, 1632, 1776, 1984, 2406, 2534, 2662, 2790, 2918, 3046, 3174, 3302,
    3430, 3558, 3664, 3792, 3872, 4160, 4240, 6112, 6160, 6470, 6608, 6784,
    6800, 6992, 7088, 7232, 7248, 42528, 43216, 43264, 43472, 43504, 43600, 44016,
    65296, 66720, 68912, 69734, 69872, 69942, 70096, 70384, 70736, 70864, 71248, 71360,
    71472, 71904, 72016, 72784, 73040, 73120, 92768, 92864, 93008, 120782, 120792, 120802,
    120812, 120822, 123200, 123632, 125264, 130032]

/-- The value of a decimal digit of any script. -/
def digitValue? (c : Char) : Option Nat :=
  (digitZeros.find? fun z => z ≤ c.toNat && c.toNat ≤ z + 9).map (c.toNat - ·)

/-- Blanks that may stand around a number: all but the separators of information. -/
def isNumeralBlank (c : Char) : Bool := isBlank c && !(28 ≤ c.toNat && c.toNat ≤ 31)

/-- A numeral without the blanks around it, its digits of any script as ASCII digits. -/
def plainNumeral (s : List Char) : List Char :=
  (trimEnd isNumeralBlank (trimStart isNumeralBlank s)).map fun c => match digitValue? c with
    | some d => Char.ofNat (48 + d)
    | none => c

/-- Digits with single underscores between them: the digits, and what follows. Nothing
when the text does not start with a digit or an underscore is not followed by one. -/
def digitRun : List Char → Option (List Char × List Char)
  | c :: '_' :: rest =>
    if c.isDigit then (digitRun rest).map fun (ds, after) => (c :: ds, after) else none
  | c :: rest =>
    if c.isDigit then
      match rest with
      | d :: _ => if d.isDigit then (digitRun rest).map fun (ds, after) => (c :: ds, after)
                  else some ([c], rest)
      | [] => some ([c], [])
    else none
  | [] => none

/-- The number that ASCII digits denote. -/
def digitsToNat (base : Nat) (ds : List Char) : Nat :=
  ds.foldl (fun n c =>
    let v := if c.isDigit then c.toNat - 48 else if c.isLower then c.toNat - 87 else c.toNat - 55
    n * base + v) 0

/-- A sign, if there is one, and what follows. -/
def splitSign : List Char → Bool × List Char
  | '-' :: rest => (true, rest)
  | '+' :: rest => (false, rest)
  | cs => (false, cs)

/-- The most digits an integer may have. -/
def maxIntegerDigits : Nat := 4300

/-- The integer that a text denotes. -/
def parseInt? (s : String) : Option Int :=
  let (neg, body) := splitSign (plainNumeral s.toList)
  match digitRun body with
  | some (ds, []) =>
    if maxIntegerDigits < ds.length then none
    else
      let n := digitsToNat 10 ds
      some (if neg then -(n : Int) else (n : Int))
  | _ => none

/-- Digits after a point or before one, possibly none. -/
def optionalDigits (s : List Char) : Option (List Char × List Char) :=
  match s with
  | c :: _ => if c.isDigit then digitRun s else some ([], s)
  | [] => some ([], [])

/-- The exponent part of a numeral, with nothing after it. -/
def parseExponent? : List Char → Option Int
  | [] => some 0
  | e :: rest =>
    if e = 'e' ∨ e = 'E' then
      let (neg, body) := splitSign rest
      match digitRun body with
      | some (ds, []) =>
        let n := digitsToNat 10 ds
        some (if neg then -(n : Int) else (n : Int))
      | _ => none
    else none

/-- The decimal numeral that an unsigned text denotes. -/
def parseDecimal? (s : List Char) : Option Decimal := do
  let (whole, rest) ← optionalDigits s
  match rest with
  | '.' :: rest =>
    let (part, rest) ← optionalDigits rest
    if whole.isEmpty && part.isEmpty then none
    let e ← parseExponent? rest
    return ⟨digitsToNat 10 (whole ++ part), e - part.length⟩
  | _ =>
    if whole.isEmpty then none
    let e ← parseExponent? rest
    return ⟨digitsToNat 10 whole, e⟩

/-- The double that a text denotes: a numeral, `inf`, `infinity` or `nan` in any case. -/
def parseFloat? (s : String) : Option Binary64 :=
  let (neg, body) := splitSign (plainNumeral s.toList)
  let word := String.ofList (body.map Char.toLower)
  if word == "inf" || word == "infinity" then some (Binary64.infinity neg)
  else if word == "nan" then some Binary64.nan
  else (parseDecimal? body).map (Binary64.ofDecimal neg)

end ProtoBind.Text
