/-
The text of a graph's reflection document, as it is stored beside generated
modules.
-/
import ProtoBind.Reflection.Document
import ProtoBind.Reflection.Shape

namespace ProtoBind.Reflection

/-- Why a graph has no description. -/
inductive DescribeFault
  | misfit (m : Misfit)
  /-- The document is not a reflection document. -/
  | invalid
  /-- A number of too many digits was to become text. -/
  | unwritable
  deriving DecidableEq, Repr, Inhabited

/-- The outermost parts of a document that do not have the shape of one. -/
def refusedParts : Json → List Json
  | .object entries =>
    match entries.lookup "nested" with
    | some (.object nested) => (nested.map (·.2)).filter fun j => !isPart j
    | _ => []
  | _ => []

/-- The text of the document, checked against the shape of reflection documents on demand. The
check shows every part that it refuses. -/
def describe (g : Schema.Graph) (validate : Bool) : Except DescribeFault String :=
  match document g with
  | .error m => .error (.misfit m)
  | .ok d =>
    if validate && !isValid d then
      .error (if (refusedParts d).all Json.isWritable then .invalid else .unwritable)
    else if d.isWritable then .ok (d.text ++ "\n")
    else .error .unwritable

end ProtoBind.Reflection
