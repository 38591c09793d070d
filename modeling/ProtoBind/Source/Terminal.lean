/-
Terminals of the schema language, and the text each of them matches.

The order of `Terminal.all` is the order in which they are tried. A matcher
gives the length of what it matches at the beginning of a text; it never
matches the empty text.
-/
namespace ProtoBind.Source

/-- A kind of token, or text between tokens (`comment` and `blank`). -/
inductive Terminal
  | float | string | comment | int | ident | blank
  | extensionsWord
  | optionalWord
  | repeatedWord
  | requiredWord
  | reservedWord
  | editionWord
  | messageWord
  | packageWord
  | returnsWord
  | serviceWord
  | extendWord
  | importWord
  | optionWord
  | publicWord
  | streamWord
  | syntaxWord
  | oneofWord
  | enumWord
  | weakWord
  | mapWord
  | maxWord
  | rpcWord
  | toWord
  | colon
  | comma
  | dot
  | equal
  | braceOpen
  | bracketOpen
  | less
  | parenOpen
  | minus
  | greater
  | plus
  | braceClose
  | bracketClose
  | parenClose
  | semicolon
  deriving DecidableEq, Repr, Inhabited

namespace Terminal

/-- All terminals in the order in which they are tried: words before marks, longer words first. -/
def all : List Terminal :=
  [float, string, comment, int, ident, blank,
    extensionsWord, optionalWord, repeatedWord, requiredWord, reservedWord, editionWord,
    messageWord, packageWord, returnsWord, serviceWord, extendWord, importWord, optionWord,
    publicWord, streamWord, syntaxWord, oneofWord, enumWord, weakWord, mapWord, maxWord, rpcWord,
    toWord, colon, comma, dot, equal, braceOpen, bracketOpen, less, parenOpen, minus, greater,
    plus, braceClose, bracketClose, parenClose, semicolon]

theorem mem_all (t : Terminal) : t ∈ all := by cases t <;> decide

/-- The number of a terminal: its place in `all`. -/
def index (t : Terminal) : Nat := all.idxOf t

def count : Nat := all.length

/-- The word that a terminal stands for. -/
def word? : Terminal → Option String
  | extensionsWord => some "extensions"
  | optionalWord => some "optional"
  | repeatedWord => some "repeated"
  | requiredWord => some "required"
  | reservedWord => some "reserved"
  | editionWord => some "edition"
  | messageWord => some "message"
  | packageWord => some "package"
  | returnsWord => some "returns"
  | serviceWord => some "service"
  | extendWord => some "extend"
  | importWord => some "import"
  | optionWord => some "option"
  | publicWord => some "public"
  | streamWord => some "stream"
  | syntaxWord => some "syntax"
  | oneofWord => some "oneof"
  | enumWord => some "enum"
  | weakWord => some "weak"
  | mapWord => some "map"
  | maxWord => some "max"
  | rpcWord => some "rpc"
  | toWord => some "to"
  | _ => none

/-- The character that a terminal stands for. -/
def mark? : Terminal → Option Char
  | colon => some ':'
  | comma => some ','
  | dot => some '.'
  | equal => some '='
  | braceOpen => some '\x7b'
  | bracketOpen => some '['
  | less => some '<'
  | parenOpen => some '('
  | minus => some '-'
  | greater => some '>'
  | plus => some '+'
  | braceClose => some '\x7d'
  | bracketClose => some ']'
  | parenClose => some ')'
  | semicolon => some ';'
  | _ => none

/-- The name of a terminal in messages. -/
def name : Terminal → String
  | float => "FLOAT"
  | string => "STRING"
  | comment => "COMMENT"
  | int => "INT"
  | ident => "IDENT"
  | blank => "WS"
  | colon => "COLON"
  | comma => "COMMA"
  | dot => "DOT"
  | equal => "EQUAL"
  | braceOpen => "LBRACE"
  | bracketOpen => "LSQB"
  | less => "LESSTHAN"
  | parenOpen => "LPAR"
  | minus => "MINUS"
  | greater => "MORETHAN"
  | plus => "PLUS"
  | braceClose => "RBRACE"
  | bracketClose => "RSQB"
  | parenClose => "RPAR"
  | semicolon => "SEMICOLON"
  | t => match t.word? with
    | some w => w.map Char.toUpper
    | none => ""

def isHexDigit (c : Char) : Bool :=
  c.isDigit || ('a' ≤ c && c ≤ 'f') || ('A' ≤ c && c ≤ 'F')

def isIdentStart (c : Char) : Bool := c.isAlpha || c == '_'

def isIdentRest (c : Char) : Bool := c.isAlphanum || c == '_'

def isSpace (c : Char) : Bool :=
  c == ' ' || c == '\t' || c == '\x0c' || c == '\r' || c == '\n'

/-- The number of leading characters in a class. -/
def spanLength (p : Char → Bool) : List Char → Nat
  | [] => 0
  | c :: rest => if p c then spanLength p rest + 1 else 0

/-- `some n` unless `n` is zero. -/
def positive (n : Nat) : Option Nat := if n = 0 then none else some n

/-- An exponent: its letter, a sign if there is one, and digits. -/
def exponentLength : List Char → Option Nat
  | e :: rest =>
    if e == 'e' || e == 'E' then
      match rest with
      | s :: more =>
        if s == '+' || s == '-' then (positive (spanLength Char.isDigit more)).map (· + 2)
        else (positive (spanLength Char.isDigit rest)).map (· + 1)
      | [] => none
    else none
  | [] => none

/-- Digits around a point, digits after a point, or digits with an exponent. -/
def floatLength (s : List Char) : Option Nat :=
  let whole := spanLength Char.isDigit s
  match s.drop whole with
  | '.' :: rest =>
    let part := spanLength Char.isDigit rest
    if whole = 0 ∧ part = 0 then none
    else some (whole + 1 + part + (exponentLength (rest.drop part)).getD 0)
  | rest => if whole = 0 then none else (exponentLength rest).map (whole + ·)

/-- The length of a quoted text from after its opening quote to its closing quote. A line feed
ends no quoted text and cannot be escaped. -/
def quotedLength (quote : Char) : List Char → Option Nat
  | [] => none
  | '\\' :: c :: rest => if c == '\n' then none else (quotedLength quote rest).map (· + 2)
  | c :: rest =>
    if c == quote then some 1
    else if c == '\n' || c == '\\' then none
    else (quotedLength quote rest).map (· + 1)

def stringLength : List Char → Option Nat
  | c :: rest => if c == '"' || c == '\'' then (quotedLength c rest).map (· + 1) else none
  | [] => none

/-- The length up to and including the first end of a block comment. -/
def blockLength : List Char → Option Nat
  | '*' :: '/' :: _ => some 2
  | _ :: rest => (blockLength rest).map (· + 1)
  | [] => none

def commentLength : List Char → Option Nat
  | '/' :: '/' :: rest => some (2 + spanLength (· != '\n') rest)
  | '/' :: '*' :: rest => (blockLength rest).map (· + 2)
  | _ => none

/-- Hexadecimal digits after `0x`, or decimal digits. -/
def intLength (s : List Char) : Option Nat :=
  let plain := positive (spanLength Char.isDigit s)
  match s with
  | '0' :: x :: rest =>
    if x == 'x' || x == 'X' then
      match positive (spanLength isHexDigit rest) with
      | some n => some (n + 2)
      | none => plain
    else plain
  | _ => plain

def identLength : List Char → Option Nat
  | c :: rest => if isIdentStart c then some (1 + spanLength isIdentRest rest) else none
  | [] => none

/-- The length of the text that a terminal matches at the beginning of `s`. -/
def matchLength (t : Terminal) (s : List Char) : Option Nat :=
  match t with
  | float => floatLength s
  | string => stringLength s
  | comment => commentLength s
  | int => intLength s
  | ident => identLength s
  | blank => positive (spanLength isSpace s)
  | t => match t.word?, t.mark? with
    | some w, _ => if w.toList.isPrefixOf s then some w.length else none
    | _, some c => if s.head? == some c then some 1 else none
    | none, none => none

end Terminal
end ProtoBind.Source
