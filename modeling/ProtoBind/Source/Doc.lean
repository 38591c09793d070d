/-
Documentation comments.

A comment with nothing but blanks before it on its line stands alone; any
other trails what is before it. A declaration is documented by the block of
standalone comments that ends on the line above it, or else by the comment
that trails it on its own line.
-/
import ProtoBind.Source.Token

namespace ProtoBind.Source

/-- Comments by line: those that stand alone by the line they end on, the others by the line
they begin on. -/
structure DocIndex where
  standalone : List (Nat × Comment)
  trailing : List (Nat × Comment)
  deriving Repr, Inhabited

namespace DocIndex

/-- What stands before a comment on its line; lines are those of `Text.splitLines`. -/
def before (lines : List (List Char)) (c : Comment) : List Char :=
  (lines.getD (c.line - 1) []).take (c.column - 1)

/-- The comment has something other than blanks before it. -/
def isTrailing (lines : List (List Char)) (c : Comment) : Bool :=
  !(Text.trimChars (before lines c)).isEmpty

def build (text : List Char) (comments : List Comment) : DocIndex :=
  let lines := Text.splitLines text
  comments.foldl (fun d c =>
    if isTrailing lines c then { d with trailing := (c.line, c) :: d.trailing }
    else { d with standalone := (c.endLine, c) :: d.standalone }) ⟨[], []⟩

end DocIndex

/-- One line of a block comment without the star that leads it. -/
def starless (line : List Char) : List Char :=
  match Text.trimChars line with
  | '*' :: rest => Text.trimChars rest
  | cs => cs

/-- The lines of a comment's contents. -/
def Comment.lines (c : Comment) : List (List Char) :=
  match c.text.toList with
  | '/' :: '/' :: rest => [Text.trimChars (rest.dropWhile (· == '/'))]
  | cs =>
    let inner := (Text.splitLines ((cs.drop 2).dropLast.dropLast)).map starless
    let inner := inner.dropWhile List.isEmpty
    (inner.reverse.dropWhile List.isEmpty).reverse

namespace DocIndex

/-- The lines of the block of standalone comments that ends on a line, before `lines`. -/
def block (d : DocIndex) : (fuel line : Nat) → List (List Char) → List (List Char)
  | 0, _, lines => lines
  | fuel + 1, line, lines =>
    match d.standalone.lookup line with
    | none => lines
    | some c => d.block fuel (c.line - 1) (c.lines ++ lines)

/-- The documentation of a declaration on a line. -/
def docFor (d : DocIndex) (line : Nat) : Option String :=
  let above := d.block line (line - 1) []
  let lines :=
    if above.isEmpty then ((d.trailing.lookup line).map Comment.lines).getD [] else above
  let doc := Text.trim (Text.join "\n" (lines.map String.ofList))
  if doc.isEmpty then none else some doc

end DocIndex
end ProtoBind.Source
