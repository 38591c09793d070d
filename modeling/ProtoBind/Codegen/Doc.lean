/-
Documentation in generated modules: docstrings, comments and the first line
of every module.
-/
import ProtoBind.Text.Blank

namespace ProtoBind.Codegen

/-- The first line of a module generated from `source`. -/
def header (source : String) : String :=
  "# Generated by ProtoWrangler" ++ (if source.isEmpty then "" else " from " ++ source) ++
    ". DO NOT EDIT."

def quotes : String := "\"\"\""

/-- Backslashes and runs of three quotes escaped. -/
def escapeDoc (doc : String) : String :=
  Text.replace quotes "\\\"\\\"\\\"" (Text.replace "\\" "\\\\" doc)

/-- The lines of a docstring, none for an empty documentation. -/
def docstring (doc : Option String) : List String :=
  let doc := doc.getD ""
  if doc.isEmpty then []
  else match Text.lines (escapeDoc doc) with
    | [line] => [quotes ++ line ++ quotes]
    | lines => quotes :: lines ++ [quotes]

/-- How many quotes a text ends with. -/
def trailingQuotes (s : List Char) : Nat := (s.reverse.takeWhile (· == '"')).length

/-- A documentation whose docstring is closed where it ends: no null character stands in it, and if it is one line, the
quotes at its end are runs of three. -/
def Closes (doc : List Char) : Prop :=
  '\x00' ∉ doc ∧ ∀ line, Text.splitLines doc = [line] → trailingQuotes line % 3 = 0

instance (doc : List Char) : Decidable (Closes doc) :=
  match h : Text.splitLines doc with
  | [line] => decidable_of_iff ('\x00' ∉ doc ∧ trailingQuotes line % 3 = 0) (by simp [Closes, h])
  | [] | _ :: _ :: _ => decidable_of_iff ('\x00' ∉ doc) (by simp [Closes, h])

/-- One comment line. -/
def commentLine (line : String) : String :=
  String.ofList (Text.trimEnd Text.isBlank ("# " ++ line).toList)

def comments (doc : Option String) : List String := (Text.lines (doc.getD "")).map commentLine

end ProtoBind.Codegen
