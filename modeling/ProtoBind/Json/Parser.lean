/-
Reading JSON text. `NaN`, `Infinity` and `-Infinity` are read as numbers, and
a key given twice keeps its first place and its last value.
-/
import ProtoBind.Json.Basic

namespace ProtoBind.Json

/-- What was read and what follows it. -/
abbrev Parsed (α : Type) := Option (α × List Char)

def isSpace (c : Char) : Bool := c == ' ' || c == '\t' || c == '\n' || c == '\r'

def skipSpace (s : List Char) : List Char := s.dropWhile isSpace

def isHex (c : Char) : Bool := c.isDigit || ('a' ≤ c && c ≤ 'f') || ('A' ≤ c && c ≤ 'F')

/-- Four hexadecimal digits. -/
def hexUnit : List Char → Parsed Nat
  | a :: b :: c :: d :: rest =>
    if [a, b, c, d].all isHex then some (Text.digitsToNat 16 [a, b, c, d], rest) else none
  | _ => none

/-- The character of a code unit, or of a pair of them when the second follows. -/
def unitChar (first : Nat) (rest : List Char) : Char × List Char :=
  if 0xd800 ≤ first ∧ first ≤ 0xdbff then
    match rest with
    | '\\' :: 'u' :: more =>
      match hexUnit more with
      | some (second, after) =>
        if 0xdc00 ≤ second ∧ second ≤ 0xdfff then
          (Char.ofNat (0x10000 + (first - 0xd800) * 0x400 + (second - 0xdc00)), after)
        else (Char.ofNat 0xfffd, rest)
      | none => (Char.ofNat 0xfffd, rest)
    | _ => (Char.ofNat 0xfffd, rest)
  else if 0xdc00 ≤ first ∧ first ≤ 0xdfff then (Char.ofNat 0xfffd, rest)
  else (Char.ofNat first, rest)

def escape? : Char → Option Char
  | '"' => some '"'
  | '\\' => some '\\'
  | '/' => some '/'
  | 'b' => some '\x08'
  | 'f' => some '\x0c'
  | 'n' => some '\n'
  | 'r' => some '\r'
  | 't' => some '\t'
  | _ => none

/-- A string from after its opening quote; `read` holds what was read, in reverse order. -/
def stringRest : (fuel : Nat) → List Char → List Char → Parsed String
  | 0, _, _ => none
  | _, [], _ => none
  | fuel + 1, '\\' :: c :: rest, read =>
    if c == 'u' then
      match hexUnit rest with
      | some (n, rest) =>
        let (ch, rest) := unitChar n rest
        stringRest fuel rest (ch :: read)
      | none => none
    else match escape? c with
      | some d => stringRest fuel rest (d :: read)
      | none => none
  | fuel + 1, c :: rest, read =>
    if c == '"' then some (String.ofList read.reverse, rest)
    else if c == '\\' || c.toNat < 0x20 then none
    else stringRest fuel rest (c :: read)

/-- The digits of a number's fraction or exponent, if they are there. -/
def fraction (s : List Char) : List Char × List Char :=
  match s with
  | '.' :: rest =>
    let ds := rest.takeWhile Char.isDigit
    if ds.isEmpty then ([], s) else (ds, rest.dropWhile Char.isDigit)
  | _ => ([], s)

def exponent (s : List Char) : Option Int × List Char :=
  match s with
  | e :: rest =>
    if e == 'e' || e == 'E' then
      let (neg, body) := Text.splitSign rest
      let ds := body.takeWhile Char.isDigit
      if ds.isEmpty then (none, s)
      else
        let n := Text.digitsToNat 10 ds
        (some (if neg then -(n : Int) else (n : Int)), body.dropWhile Char.isDigit)
    else (none, s)
  | [] => (none, s)

/-- A number without its sign. -/
def unsigned (neg : Bool) (s : List Char) : Parsed Json :=
  let whole := match s with
    | '0' :: _ => ['0']
    | _ => s.takeWhile Char.isDigit
  if whole.isEmpty then none
  else
    let (part, rest) := fraction (s.drop whole.length)
    let (power, rest) := exponent rest
    if part.isEmpty && power.isNone then
      let n := Text.digitsToNat 10 whole
      some (int (if neg then -(n : Int) else (n : Int)), rest)
    else
      let d : Decimal := ⟨Text.digitsToNat 10 (whole ++ part), power.getD 0 - part.length⟩
      some (float (Binary64.ofDecimal neg d), rest)

/-- The words that stand for values. -/
def words : List (String × Json) :=
  [("null", null), ("true", bool true), ("false", bool false), ("NaN", float Binary64.nan),
    ("Infinity", float (Binary64.infinity false)), ("-Infinity", float (Binary64.infinity true))]

def word (s : List Char) : Parsed Json :=
  (words.find? fun w => w.1.toList.isPrefixOf s).map fun w => (w.2, s.drop w.1.length)

mutual

/-- A value at the beginning of a text without leading blanks. -/
def value : (fuel : Nat) → List Char → Parsed Json
  | 0, _ => none
  | fuel + 1, s =>
    match word s with
    | some r => some r
    | none =>
      match s with
      | '"' :: rest => (stringRest (rest.length + 1) rest []).map fun (t, r) => (string t, r)
      | '[' :: rest =>
        match skipSpace rest with
        | ']' :: rest => some (array [], rest)
        | rest => (items fuel rest []).map fun (js, r) => (array js, r)
      | '\x7b' :: rest =>
        match skipSpace rest with
        | '\x7d' :: rest => some (object [], rest)
        | rest => (entries fuel rest []).map fun (es, r) => (object (Entries.ofList (· == ·) es), r)
      | '-' :: rest => unsigned true rest
      | s => unsigned false s

/-- Items of an array up to its end; `read` holds those before, in reverse order. -/
def items : (fuel : Nat) → List Char → List Json → Parsed (List Json)
  | 0, _, _ => none
  | fuel + 1, s, read =>
    match value fuel s with
    | none => none
    | some (j, rest) =>
      match skipSpace rest with
      | ']' :: rest => some ((j :: read).reverse, rest)
      | ',' :: rest => items fuel (skipSpace rest) (j :: read)
      | _ => none

/-- Entries of an object up to its end; `read` holds those before, in reverse order. -/
def entries : (fuel : Nat) → List Char → List (String × Json) → Parsed (List (String × Json))
  | 0, _, _ => none
  | fuel + 1, s, read =>
    match s with
    | '"' :: rest =>
      match stringRest (rest.length + 1) rest [] with
      | none => none
      | some (k, rest) =>
        match skipSpace rest with
        | ':' :: rest =>
          match value fuel (skipSpace rest) with
          | none => none
          | some (j, rest) =>
            match skipSpace rest with
            | '\x7d' :: rest => some (((k, j) :: read).reverse, rest)
            | ',' :: rest => entries fuel (skipSpace rest) ((k, j) :: read)
            | _ => none
        | _ => none
    | _ => none

end

/-- The document of a text; nothing when the text is not JSON. -/
def parse? (s : String) : Option Json :=
  let cs := s.toList
  match value (cs.length + 1) (skipSpace cs) with
  | some (j, rest) => if (skipSpace rest).isEmpty then some j else none
  | none => none

end ProtoBind.Json
