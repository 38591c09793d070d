/-
JSON text: two blanks of indentation for each level, one entry a line, and
only the characters escaped that have to be. A document with an integer of too
many digits has no text.
-/
import ProtoBind.Json.Basic

namespace ProtoBind.Json

/-- One character of a string. -/
def escapeChar (c : Char) : List Char :=
  if c = '"' then ['\\', '"']
  else if c = '\\' then ['\\', '\\']
  else if c = '\n' then ['\\', 'n']
  else if c = '\r' then ['\\', 'r']
  else if c = '\t' then ['\\', 't']
  else if c = '\x08' then ['\\', 'b']
  else if c = '\x0c' then ['\\', 'f']
  else if c.toNat < 0x20 then '\\' :: 'u' :: Text.hexDigits 4 c.toNat
  else [c]

def stringText (s : String) : String :=
  String.ofList ('"' :: s.toList.flatMap escapeChar ++ ['"'])

/-- A double, with words for what is not a finite number. -/
def floatText (x : Binary64) : String :=
  if x.isNaN then "NaN"
  else if x.isInf then (if x.sign then "-Infinity" else "Infinity")
  else x.text

def indentation (level : Nat) : String := String.ofList (List.replicate (2 * level) ' ')

/-- Entries between brackets, each on a line of its own one level further in. -/
def bracketed (opening closing : String) (level : Nat) (entries : List String) : String :=
  if entries.isEmpty then opening ++ closing
  else
    let line := "\n" ++ indentation (level + 1)
    opening ++ line ++ Text.join ("," ++ line) entries ++ "\n" ++ indentation level ++ closing

mutual

/-- A document as text, at a level of indentation. -/
def textAt (level : Nat) : Json → String
  | null => "null"
  | bool b => if b then "true" else "false"
  | int n => intText n
  | float x => floatText x
  | string s => stringText s
  | array items => bracketed "[" "]" level (itemTexts (level + 1) items)
  | object entries => bracketed "\x7b" "\x7d" level (entryTexts (level + 1) entries)

def itemTexts (level : Nat) : List Json → List String
  | [] => []
  | j :: rest => textAt level j :: itemTexts level rest

def entryTexts (level : Nat) : List (String × Json) → List String
  | [] => []
  | (k, j) :: rest => (stringText k ++ ": " ++ textAt level j) :: entryTexts level rest

end

def text (j : Json) : String := textAt 0 j

mutual

/-- All integers of a document have texts, and so has the document. -/
def isWritable : Json → Bool
  | int n => isShort n
  | array items => areWritable items
  | object entries => entriesWritable entries
  | _ => true

def areWritable : List Json → Bool
  | [] => true
  | j :: rest => j.isWritable && areWritable rest

def entriesWritable : List (String × Json) → Bool
  | [] => true
  | (_, j) :: rest => j.isWritable && entriesWritable rest

end

end ProtoBind.Json
