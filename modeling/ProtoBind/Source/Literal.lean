/-
What the literals of the schema language denote.

An integer is decimal, hexadecimal after `0x`, or octal after a leading zero.
A signed number may also be a double, or one of the words for infinity and
for no number, which stay words. A quoted text may hold escapes; an unknown
escape stands for itself.
-/
import ProtoBind.Value

namespace ProtoBind.Source

/-- Every character is a digit below `base`, at least one of them. -/
def areDigits (base : Nat) (ds : List Char) : Bool :=
  !ds.isEmpty && ds.all fun c =>
    if c.isDigit then c.toNat - 48 < base
    else if 'a' ≤ c && c ≤ 'f' then c.toNat - 87 < base
    else if 'A' ≤ c && c ≤ 'F' then c.toNat - 55 < base
    else false

/-- The number that unsigned digits denote. Decimal digits are limited in number. -/
def magnitude? (digits : List Char) : Option Nat :=
  match digits with
  | '0' :: x :: rest =>
    if x == 'x' || x == 'X' then
      if areDigits 16 rest then some (Text.digitsToNat 16 rest) else none
    else if areDigits 8 (x :: rest) then some (Text.digitsToNat 8 (x :: rest)) else none
  | _ =>
    if areDigits 10 digits && digits.length ≤ Text.maxIntegerDigits then
      some (Text.digitsToNat 10 digits)
    else none

/-- The integer that a literal with an optional sign denotes. -/
def intLiteral? (text : List Char) : Option Int :=
  let digits := text.dropWhile fun c => c == '+' || c == '-'
  (magnitude? digits).map fun n => if text.head? == some '-' then -(n : Int) else (n : Int)

/-- The value that a number with an optional sign denotes. -/
def numberLiteral? (text : List Char) : Option Value :=
  let lowered := (text.map Char.toLower).dropWhile (· == '+')
  let word := String.ofList lowered
  if ["inf", "-inf", "nan", "-nan"].contains word then some (.ident word)
  else if (lowered.contains '.' || lowered.contains 'e') &&
      !List.isPrefixOf ['0', 'x'] (lowered.dropWhile (· == '-')) then
    (Text.parseFloat? word).map .float
  else (intLiteral? lowered).map .int

/-- The character that a letter stands for after a backslash. -/
def simpleEscape? : Char → Option Char
  | 'n' => some '\n'
  | 't' => some '\t'
  | 'r' => some '\r'
  | 'a' => some '\x07'
  | 'b' => some '\x08'
  | 'f' => some '\x0c'
  | 'v' => some '\x0b'
  | '\\' => some '\\'
  | '\'' => some '\''
  | '"' => some '"'
  | _ => none

/-- How many hexadecimal digits follow a letter after a backslash. -/
def hexEscape? : Char → Option Nat
  | 'x' => some 2
  | 'u' => some 4
  | 'U' => some 8
  | _ => none

def isOctal (c : Char) : Bool := '0' ≤ c && c ≤ '7'

/-- The characters that have a name, in a table kept elsewhere. -/
class CharacterNames where
  find? : String → Option Char

/-- Without a table no character has a name. -/
instance (priority := low) CharacterNames.none : CharacterNames := ⟨fun _ => .none⟩

/-- The names of characters are written in letters, digits, spaces and hyphens. -/
def isNameChar (c : Char) : Bool := c.isAlphanum || c == ' ' || c == '-'

/-- The character named between braces at the front, and what follows the name. -/
def namedChar? [CharacterNames] : List Char → Option (Char × List Char)
  | '\x7b' :: rest =>
    let name := rest.takeWhile isNameChar
    match rest.drop name.length with
    | '\x7d' :: after =>
      if name.isEmpty then none
      else (CharacterNames.find? (String.ofList name)).map fun c => (c, after)
    | _ => none
  | _ => none

/-- Reads the contents of a quoted text as code points. Nothing when an escape is malformed, when
a carriage return stands outside an escape, or at a null character. -/
def codePoints [CharacterNames] : List Char → (fuel : Nat) → Option (List Nat)
  | _, 0 => none
  | [], _ => some []
  | '\\' :: c :: rest, fuel + 1 =>
    if c == '\r' then codePoints rest fuel
    else if c == '\x00' then none
    else match simpleEscape? c, hexEscape? c with
      | some d, _ => (codePoints rest fuel).map (d.toNat :: ·)
      | none, some n =>
        let digits := rest.take n
        if digits.length = n && areDigits 16 digits then
          let code := Text.digitsToNat 16 digits
          if code < 0x110000 then (codePoints (rest.drop n) fuel).map (code :: ·) else none
        else none
      | none, none =>
        if isOctal c then
          let more := (rest.take 2).takeWhile isOctal
          (codePoints (rest.drop more.length) fuel).map (Text.digitsToNat 8 (c :: more) :: ·)
        else if c == 'N' then
          match namedChar? rest with
          | some (d, after) => (codePoints after fuel).map (d.toNat :: ·)
          | none => none
        else (codePoints rest fuel).map ('\\'.toNat :: c.toNat :: ·)
  | c :: rest, fuel + 1 =>
    if c == '\r' || c == '\x00' || c == '\\' then none
    else (codePoints rest fuel).map (c.toNat :: ·)

/-- The character of a code point; half of a surrogate pair is none. -/
def charOfCode? (code : Nat) : Option Char :=
  if code.isValidChar then some (Char.ofNat code) else none

/-- The characters in the contents of a quoted text. -/
def unescape [CharacterNames] (contents : List Char) (fuel : Nat) : Option (List Char) :=
  (codePoints contents fuel).bind (·.mapM charOfCode?)

/-- What a literal that denotes nothing was meant to be. -/
inductive LiteralKind
  | number | text
  /-- A text with half of a surrogate pair, which is no character here. -/
  | surrogate
  deriving DecidableEq, Repr, Inhabited

/-- The text that a quoted literal denotes, quotes included in `text`. -/
def stringLiteral [CharacterNames] (text : List Char) : Except LiteralKind String :=
  let inner := (text.drop 1).dropLast
  match unescape inner (inner.length + 1) with
  | some chars => .ok (String.ofList chars)
  | none => .error (if (codePoints inner (inner.length + 1)).isSome then .surrogate else .text)

end ProtoBind.Source
