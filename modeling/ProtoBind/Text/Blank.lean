/-
Blanks and line breaks.

`isBlank` is the set of characters taken off by trimming, `isLineBreak` the
set at which a text is cut into lines. Both are wider than ASCII.
-/
namespace ProtoBind.Text

/-- Tab to carriage return, the four separators of information, and the space
characters of Unicode. -/
def isBlank (c : Char) : Bool :=
  let n := c.toNat
  (9 ≤ n && n ≤ 13) || (28 ≤ n && n ≤ 32) || n == 0x85 || n == 0xa0 || n == 0x1680 ||
    (0x2000 ≤ n && n ≤ 0x200a) || n == 0x2028 || n == 0x2029 || n == 0x202f || n == 0x205f ||
    n == 0x3000

/-- Characters that end a line; a carriage return and a line feed together end one. -/
def isLineBreak (c : Char) : Bool :=
  let n := c.toNat
  (10 ≤ n && n ≤ 13) || (28 ≤ n && n ≤ 30) || n == 0x85 || n == 0x2028 || n == 0x2029

def trimStart (p : Char → Bool) (s : List Char) : List Char := s.dropWhile p

def trimEnd (p : Char → Bool) (s : List Char) : List Char := (s.reverse.dropWhile p).reverse

/-- Without the blanks at both ends. -/
def trimChars (s : List Char) : List Char := trimEnd isBlank (trimStart isBlank s)

def trim (s : String) : String := String.ofList (trimChars s.toList)

/-- Cuts at every line break; `line` holds the characters of the current line in
reverse order. A text that ends with a line break has no empty line after it. -/
def splitLinesAux : List Char → List Char → List (List Char)
  | [], line => if line.isEmpty then [] else [line.reverse]
  | '\r' :: '\n' :: rest, line => line.reverse :: splitLinesAux rest []
  | c :: rest, line =>
    if isLineBreak c then line.reverse :: splitLinesAux rest [] else splitLinesAux rest (c :: line)

/-- The lines of a text. -/
def splitLines (s : List Char) : List (List Char) := splitLinesAux s []

def lines (s : String) : List String := (splitLines s.toList).map String.ofList

/-- A line feed for every line end that is a carriage return, alone or before a line feed. -/
def normalizeNewlines : List Char → List Char
  | [] => []
  | '\r' :: '\n' :: rest => '\n' :: normalizeNewlines rest
  | '\r' :: rest => '\n' :: normalizeNewlines rest
  | c :: rest => c :: normalizeNewlines rest

/-- Cuts at every occurrence of one character; there is always one more piece than there
are occurrences. -/
def splitAtChar (d : Char) : List Char → List (List Char)
  | [] => [[]]
  | c :: rest =>
    if c = d then [] :: splitAtChar d rest
    else match splitAtChar d rest with
      | [] => [[c]]
      | piece :: pieces => (c :: piece) :: pieces

def splitOnChar (d : Char) (s : String) : List String := (splitAtChar d s.toList).map String.ofList

/-- The text joined by a separator. -/
def join (separator : String) (parts : List String) : String := String.intercalate separator parts

/-- `s` begins with `p`. -/
def startsWith (s p : String) : Bool := p.toList.isPrefixOf s.toList

/-- `part` stands somewhere in `s`. -/
def hasPart (part : List Char) : (s : List Char) → Bool
  | [] => part.isEmpty
  | c :: rest => part.isPrefixOf (c :: rest) || hasPart part rest

/-- ASCII letters in lower case, all else unchanged. -/
def lowerAscii (s : String) : String := String.ofList (s.toList.map Char.toLower)

/-- Every occurrence of `old`, from the left and without overlap, replaced. `old` is not empty. -/
def replaceAll (old new : List Char) : (s : List Char) → (fuel : Nat) → List Char
  | s, 0 => s
  | [], _ => []
  | c :: rest, fuel + 1 =>
    if old.isPrefixOf (c :: rest) then new ++ replaceAll old new ((c :: rest).drop old.length) fuel
    else c :: replaceAll old new rest fuel

def replace (old new s : String) : String :=
  String.ofList (replaceAll old.toList new.toList s.toList (s.toList.length + 1))

end ProtoBind.Text
