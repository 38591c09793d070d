/-
Which documents are reflection documents.

A shape describes documents: their kind, their keys, and the shapes of their
parts. Shapes refer to each other by name, so they can describe documents
nested to any depth.
-/
import ProtoBind.Json.Basic

namespace ProtoBind.Reflection

/-- The named shapes. -/
inductive ShapeName
  | nested | package | message | field | extension | enum | service | method
  deriving DecidableEq, Repr

inductive Shape
  | any
  | text
  | boolean
  /-- A number without a fraction, at least `minimum` if that is given. -/
  | integer (minimum : Option Int)
  /-- Exactly this text. -/
  | exactly (s : String)
  /-- A list of at least `least` items of one shape. -/
  | list (least : Nat) (item : Shape)
  /-- An object with the required keys; a key that is not a property needs the shape `others`,
  and is refused if there is none. -/
  | record (required : List String) (properties : List (String × Shape)) (others : Option Shape)
  | anyOf (alternatives : List ShapeName)
  | named (name : ShapeName)
  deriving Repr

namespace Shape

/-- Objects with any keys and values of one shape. -/
def mapping (values : Shape) : Shape := record [] [] (some values)

def fieldProperties : List (String × Shape) :=
  [("type", text), ("id", integer (some 1)), ("rule", exactly "repeated"), ("keyType", text),
    ("default", any), ("packed", boolean)]

def oneofShape : Shape := record ["oneof"] [("oneof", list 1 text)] none

/-- The shapes of the documents inside a package or a message. -/
def innerShapes : List ShapeName := [.message, .enum, .service, .extension, .package]

/-- What each name stands for. -/
def definition : ShapeName → Shape
  | .nested => mapping (anyOf innerShapes)
  | .package => record [] [("nested", named .nested)] none
  | .message =>
    record ["fields"]
      [("fields", mapping (named .field)), ("oneofs", mapping oneofShape),
        ("nested", named .nested)] none
  | .field => record ["type", "id"] fieldProperties none
  | .extension => record ["type", "id", "extend"] (fieldProperties ++ [("extend", text)]) none
  | .enum => record ["values"] [("values", mapping (integer none))] none
  | .service => record ["methods"] [("methods", mapping (named .method))] none
  | .method =>
    record ["requestType", "responseType"]
      [("requestType", text), ("responseType", text), ("requestStream", boolean),
        ("responseStream", boolean)] none

/-- The document is a number without a fraction that is at least `minimum`. -/
def isInteger (minimum : Option Int) : Json → Bool
  | .int n => minimum.all (· ≤ n)
  | .float x => x.isIntegral && minimum.all x.atLeastInt
  | _ => false

/-- The document has the shape. Each level of a document takes at most three steps. -/
def holds : (fuel : Nat) → Shape → Json → Bool
  | 0, _, _ => false
  | fuel + 1, shape, j =>
    match shape, j with
    | any, _ => true
    | text, .string _ => true
    | boolean, .bool _ => true
    | integer minimum, j => isInteger minimum j
    | exactly s, .string t => s == t
    | list least item, .array items => least ≤ items.length && items.all (holds fuel item)
    | record required properties others, .object entries =>
      required.all (fun k => (entries.lookup k).isSome) &&
        entries.all fun (k, v) =>
          match properties.lookup k with
          | some s => holds fuel s v
          | none => match others with
            | some s => holds fuel s v
            | none => false
    | anyOf names, j => names.any fun n => holds fuel (definition n) j
    | named n, j => holds fuel (definition n) j
    | _, _ => false

end Shape

mutual

/-- The depth of a document. -/
def depth : Json → Nat
  | .array items => depthAll items + 1
  | .object entries => depthEntries entries + 1
  | _ => 1

def depthAll : List Json → Nat
  | [] => 0
  | j :: rest => max (depth j) (depthAll rest)

def depthEntries : List (String × Json) → Nat
  | [] => 0
  | (_, j) :: rest => max (depth j) (depthEntries rest)

end

/-- The document is a reflection document. -/
def isValid (j : Json) : Bool := Shape.holds (3 * depth j + 3) (.named .package) j

/-- The document is a part of a reflection document. -/
def isPart (j : Json) : Bool := Shape.holds (3 * depth j + 3) (.anyOf Shape.innerShapes) j

end ProtoBind.Reflection
