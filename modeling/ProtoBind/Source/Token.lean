/-
Tokens and the lexer.

At each place only some terminals are expected; blanks and comments are always
allowed and stand between tokens. `Cursor.next` gives the next token among the
expected ones. A word is recognised by comparing a whole identifier when
identifiers are expected too, and by its own letters otherwise.
-/
import ProtoBind.Grammar.Automaton
import ProtoBind.Source.Terminal
import ProtoBind.Text.Blank
import ProtoBind.Text.Quoted

namespace ProtoBind.Source

/-- A token and where it begins; lines and columns count from one. -/
structure Token where
  terminal : Terminal
  text : String
  line : Nat
  column : Nat
  deriving DecidableEq, Repr, Inhabited

/-- A comment, where it begins, and the line it ends on. -/
structure Comment where
  text : String
  line : Nat
  column : Nat
  endLine : Nat
  deriving DecidableEq, Repr, Inhabited

/-- A place in a text and what follows it. -/
structure Cursor where
  rest : List Char
  line : Nat
  column : Nat
  deriving Repr, Inhabited

/-- The place behind some characters: a line feed begins a line. -/
def place (line column : Nat) : List Char → Nat × Nat
  | [] => (line, column)
  | c :: rest => if c == '\n' then place (line + 1) 1 rest else place line (column + 1) rest

namespace Cursor

def ofText (s : List Char) : Cursor := ⟨s, 1, 1⟩

/-- The place `n` characters further on. -/
def advance (c : Cursor) (n : Nat) : Cursor :=
  let (line, column) := place c.line c.column (c.rest.take n)
  ⟨c.rest.drop n, line, column⟩

end Cursor

/-- The terminals with their numbers. -/
def numbered : List (Terminal × Nat) := Terminal.all.zipIdx

/-- The terminal is looked for where `expected` is the set of expected terminals. -/
def isTried (expected : Nat) (t : Terminal) (number : Nat) : Bool :=
  t == .blank || t == .comment ||
    (Grammar.hasBit expected number &&
      (t.word?.isNone || !Grammar.hasBit expected Terminal.ident.index))

/-- The expected word that a whole identifier is, or else an identifier. -/
def classify (expected : Nat) (text : List Char) : Terminal :=
  ((numbered.find? fun (t, i) =>
    Grammar.hasBit expected i && t.word? == some (String.ofList text)).map (·.1)).getD .ident

/-- The first terminal that matches at the beginning of a text, and the length of its match. -/
def scan (expected : Nat) (s : List Char) : Option (Terminal × Nat) :=
  numbered.findSome? fun (t, i) =>
    if isTried expected t i then
      (t.matchLength s).map fun n =>
        (if t == .ident then classify expected (s.take n) else t, n)
    else none

/-- Every terminal. -/
def anyTerminal : Nat := Grammar.bit Terminal.count - 1

/-- What stands at a place. -/
inductive Lexed
  | token (t : Token) (after : Cursor)
  | finish
  /-- No expected terminal matches here. -/
  | stray (at_ : Cursor)
  deriving Repr, Inhabited

/-- The next token after blanks and comments, and the comments passed, the latest first. -/
def Cursor.next (expected : Nat) (c : Cursor) (passed : List Comment) : Lexed × List Comment :=
  if c.rest.isEmpty then (.finish, passed)
  else match scan expected c.rest with
    | none => (.stray c, passed)
    | some (t, n) =>
      if _h : 0 < n ∧ 0 < c.rest.length then
        let after := c.advance n
        let text := String.ofList (c.rest.take n)
        if t == .blank then Cursor.next expected after passed
        else if t == .comment then
          Cursor.next expected after (⟨text, c.line, c.column, after.line⟩ :: passed)
        else (.token ⟨t, text, c.line, c.column⟩ after, passed)
      else (.stray c, passed)
termination_by c.rest.length
decreasing_by all_goals (simp [Cursor.advance, List.length_drop]; omega)

/-- Why a text is not a schema file. -/
inductive SyntaxFault
  /-- A token, named by its terminal, that cannot stand where it does. -/
  | unexpected (name text : String) (line column : Nat)
  /-- A character with which no token begins. -/
  | unmatched (c : Char) (line column : Nat)
  deriving DecidableEq, Repr, Inhabited

namespace SyntaxFault

def line : SyntaxFault → Nat
  | unexpected _ _ l _ => l
  | unmatched _ l _ => l

def column : SyntaxFault → Nat
  | unexpected _ _ _ c => c
  | unmatched _ _ c => c

/-- The whole wording, before it is cut to one line. -/
def fullDetail : SyntaxFault → String
  | unexpected name text l c =>
    "Unexpected token Token(" ++ Text.quoted name ++ ", " ++ Text.quoted text ++
      s!") at line {l}, column {c}."
  | unmatched ch l c =>
    "No terminal matches '" ++ ch.toString ++
      s!"' in the current parser context, at line {l} col {c}"

/-- The wording: one line, without blanks around it. -/
def detail (f : SyntaxFault) : String := (Text.lines (Text.trim f.fullDetail)).headD ""

end SyntaxFault

/-- The fault of a place where no expected terminal matches: the token that stands there, if
any token does, or else its first character. -/
def Cursor.fault (c : Cursor) : SyntaxFault :=
  match scan anyTerminal c.rest with
  | some (t, n) => .unexpected t.name (String.ofList (c.rest.take n)) c.line c.column
  | none => .unmatched (c.rest.headD ' ') c.line c.column

end ProtoBind.Source
