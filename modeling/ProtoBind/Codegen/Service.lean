/-
The client class of a service.
-/
import ProtoBind.Codegen.Reference

namespace ProtoBind.Codegen

open Schema (Node Method Reference)

/-- The expressions for the class and the dictionary type of a method's message. -/
def messageRefs (s : Site) (method : Node) (r : Reference) : Emit (String × String) := do
  match ← s.targetOf method r with
  | none => return (placeholder, placeholder)
  | some target => return (← s.classRef target, ← s.shapeRef target)

/-- The method of a client class, given the alias of `typing` and the expressions for its
messages. -/
def methodCode (typing : String) (n : Node) (m : Method) (request requestShape response : String) :
    List Code :=
  let accepted := typing ++ ".Union[" ++ requestShape ++ ", " ++ request ++ "]"
  let accepted := if m.requestStream then typing ++ ".Iterable[" ++ accepted ++ "]" else accepted
  let passed :=
    if m.requestStream then "(" ++ request ++ ".create(item) for item in request)"
    else request ++ ".create(request)"
  let returned := if m.responseStream then typing ++ ".Iterator[" ++ response ++ "]" else response
  [.line ("def " ++ Naming.methodName (snakeCase n.name) ++ "(self, request: " ++ accepted ++
      ", metadata: " ++ typing ++ ".Optional[" ++ typing ++ ".Mapping[str, str]] = None) -> " ++
      returned ++ ":"),
    .block (Code.ofLines (docstring n.doc) ++
      [.line ("return self.call(\"" ++ n.name ++ "\", " ++ passed ++ ", " ++ response ++
        ", metadata)")])]

def emitMethod (s : Site) (n : Node) (m : Method) : Emit (List Code) := do
  let typing ← Emit.typingAlias
  let (request, requestShape) ← messageRefs s n m.request
  let (response, _) ← messageRefs s n m.response
  return methodCode typing n m request requestShape response

/-- The client class of a service, given the code of its methods. -/
def serviceCode (runtime reflection : String) (n : Node) (methods : List (List Code)) : List Code :=
  let doc := docstring n.doc
  [.line ("class " ++ className n ++ "(" ++ runtime ++ ".Client):"),
    .block ((if doc.isEmpty then [] else Code.ofLines doc ++ [.blank 1]) ++
      [.line ("reflection = " ++ reflection ++ ".root.lookup_service(\"" ++ n.path ++ "\")")] ++
      methods.flatMap (.blank 1 :: ·))]

def emitService (s : Site) (o : Options) (n : Node) : Emit (List Code) := do
  let runtime ← Emit.runtimeAlias o
  let reflection ← Emit.reflectionAlias o
  let methods ← (s.graph.childrenOf n).filterMapM fun c =>
    match c.method? with
    | some m => do return some (← emitMethod s c m)
    | none => return none
  return serviceCode runtime reflection n methods

end ProtoBind.Codegen
