/-
Quoted text and quoted bytes, as values are shown.

A text is put between single quotes, or between double quotes when it holds a
single quote and no double one. Backslash, the chosen quote, tab, line feed
and carriage return are escaped with a backslash; what is not printable is
written by its code in hexadecimal with two, four or eight digits.
-/
import ProtoBind.Text.Printable

namespace ProtoBind.Text

/-- The last `width` hexadecimal digits of a number, in lower case. -/
def hexDigits (width n : Nat) : List Char :=
  let digits := Nat.toDigits 16 n
  List.replicate (width - digits.length) '0' ++ digits

/-- The quote for a text that holds single quotes or double quotes or both. -/
def chooseQuote (single double : Bool) : Char := if single && !double then '"' else '\''

/-- One character of a quoted text. -/
def quoteChar (quote c : Char) : List Char :=
  if c = quote ∨ c = '\\' then ['\\', c]
  else if c = '\n' then ['\\', 'n']
  else if c = '\r' then ['\\', 'r']
  else if c = '\t' then ['\\', 't']
  else if 32 ≤ c.toNat ∧ c.toNat < 127 then [c]
  else if isPrintable c then [c]
  else if c.toNat < 0x100 then '\\' :: 'x' :: hexDigits 2 c.toNat
  else if c.toNat < 0x10000 then '\\' :: 'u' :: hexDigits 4 c.toNat
  else '\\' :: 'U' :: hexDigits 8 c.toNat

/-- The text between quotes. -/
def quoted (s : String) : String :=
  let cs := s.toList
  let quote := chooseQuote (cs.contains '\'') (cs.contains '"')
  String.ofList (quote :: cs.flatMap (quoteChar quote) ++ [quote])

/-- One byte of quoted bytes: everything outside printable ASCII is written by its code. -/
def quoteByte (quote : Char) (b : UInt8) : List Char :=
  let c := Char.ofNat b.toNat
  if c = quote ∨ c = '\\' then ['\\', c]
  else if c = '\n' then ['\\', 'n']
  else if c = '\r' then ['\\', 'r']
  else if c = '\t' then ['\\', 't']
  else if 32 ≤ b.toNat ∧ b.toNat < 127 then [c]
  else '\\' :: 'x' :: hexDigits 2 b.toNat

/-- Bytes between quotes, after the letter that marks them as bytes. -/
def quotedBytes (bs : List UInt8) : String :=
  let quote := chooseQuote (bs.contains 39) (bs.contains 34)
  String.ofList ('b' :: quote :: bs.flatMap (quoteByte quote) ++ [quote])

end ProtoBind.Text
